/-
Frankengit/GitObject/RoundTrip.lean

Emitting a parsed object body.

Everything a parser accepted is written back byte for byte, and is accepted by
the emitter's own checks, with one exception.  A commit or tag without a blank
line after its headers may end in a newline; the import profile strips that
newline before it reads the last header, and the emitter has nothing to write
it from (`emit_parse`).
-/
import Frankengit.GitObject.Syntax

namespace Frankengit.GitObject

open Cutting Fallible List HeaderField HeaderObject Except

variable {profile : AcceptanceProfile} {limits : ParseLimits}

/-! ### Trees -/

/-- What the parser checked of an entry. -/
structure Accepted (profile : AcceptanceProfile) (limits : ParseLimits) (entry : TreeEntry) :
    Prop where
  mode : validateTreeMode entry.mode profile = .ok ()
  name : ¬ (profile = .strictCreate ∧ ¬ isStrictTreeName entry.name)
  width : entry.objectId.length = limits.treeReferenceBytes

theorem parseTreeEntry_ok {bytes rest : Bytes} {entry : TreeEntry}
    (h : parseTreeEntry profile limits bytes = .ok (entry, rest)) :
    bytes = entry.bytes ++ rest ∧ Accepted profile limits entry := by
  unfold parseTreeEntry at h
  split at h
  · cases h
  · next mode afterMode hmode =>
    obtain ⟨⟨⟩, hvalid, h⟩ := bind_eq_ok.mp h
    split at h
    · cases h
    · next name afterName hname =>
      simp only [bind_eq_ok, refuseIf_eq_ok, pure_eq_ok, Prod.mk.injEq] at h
      obtain ⟨-, hstrict, -, hwidth, rfl, rfl⟩ := h
      obtain ⟨rfl, -⟩ := cut_eq_some.mp hmode
      obtain ⟨rfl, -⟩ := cut_eq_some.mp hname
      refine ⟨?_, hvalid, hstrict, ?_⟩
      · simp [TreeEntry.bytes, take_append_drop]
      · rw [length_take]
        omega

variable {entries : List TreeEntry}

/-- The entries spell the body. -/
theorem parseTreeEntries_ok {room : ℕ} {bytes : Bytes}
    (h : parseTreeEntries profile limits room bytes = .ok entries) :
    bytes = entries.flatMap TreeEntry.bytes ∧ entries.length ≤ room ∧
      ∀ entry ∈ entries, Accepted profile limits entry := by
  fun_induction parseTreeEntries profile limits room bytes generalizing entries with
  | case1 =>
    obtain rfl := ok.inj h
    simp
  | case2 => cases h
  | case3 room byte bytes ih =>
    simp only [bind_eq_ok, pure_eq_ok] at h
    obtain ⟨⟨entry, rest⟩, hentry, entries', hentr, rfl⟩ := h
    obtain ⟨hbytes, hacc⟩ := parseTreeEntry_ok hentry
    obtain ⟨rfl, hlen, hall⟩ := ih rest hentr
    rw [hbytes, flatMap_cons, length_cons]
    exact ⟨rfl, Nat.succ_le_succ hlen, forall_mem_cons.mpr ⟨hacc, hall⟩⟩

theorem length_treeEntry_bytes (entry : TreeEntry) :
    entry.bytes.length = entry.mode.length + entry.name.length + entry.objectId.length + 2 := by
  simp only [TreeEntry.bytes, length_append, length_cons]
  omega

/-- Accepted entries are emitted as long as the bytes fit. -/
theorem emitTreeEntries_ok {output : Bytes}
    (hacc : ∀ entry ∈ entries, Accepted profile limits entry)
    (hfits : (output ++ entries.flatMap TreeEntry.bytes).length ≤ limits.maxObjectBytes) :
    entries.foldlM (emitTreeEntry profile limits) output
      = .ok (output ++ entries.flatMap TreeEntry.bytes) := by
  induction entries generalizing output with
  | nil =>
    rw [flatMap_nil, append_nil]
    rfl
  | cons entry entries ih =>
    obtain ⟨hentry, hrest⟩ := forall_mem_cons.mp hacc
    rw [flatMap_cons, ← append_assoc] at hfits ⊢
    rw [foldlM_cons_ok]
    refine ⟨output ++ entry.bytes, ?_, ih hrest hfits⟩
    simp only [length_append, length_treeEntry_bytes] at hfits
    simp only [emitTreeEntry, bind_eq_ok, refuseIf_eq_ok]
    refine ⟨(), hentry.mode, (), hentry.name, (), not_not.mpr hentry.width, (), ?_, rfl⟩
    omega

/-- A parsed tree is emitted as it was. -/
theorem emitTree_parseTree {body : Bytes} (h : parseTree body profile limits = .ok entries) :
    emitTree entries profile limits = .ok body := by
  simp only [parseTree, bind_eq_ok, refuseIf_eq_ok, check_eq_ok, pure_eq_ok] at h
  obtain ⟨⟨⟩, hwidth, -, hsize, parsed, hparsed, hstrict, rfl⟩ := h
  obtain ⟨rfl, hlen, hacc⟩ := parseTreeEntries_ok hparsed
  simp only [emitTree, bind_eq_ok, refuseIf_eq_ok, check_eq_ok]
  exact ⟨(), hwidth, (), Nat.not_lt_of_le hlen, hstrict,
    emitTreeEntries_ok hacc (Nat.le_of_not_lt hsize)⟩

/-! ### Headers -/

/-- The headers spell the lines read so far. -/
def Spells (lines : List Bytes) (headers : List HeaderField) : Prop :=
  [newline].intercalate (headers.map bytes) = [newline].intercalate lines ∧
    (headers = [] ↔ lines = [])

/-- A continuation lengthens its header. -/
theorem bytes_continued (header : HeaderField) (continuation : Bytes) :
    bytes { header with continuations := header.continuations ++ [continuation] }
      = header.bytes ++ newline :: space :: continuation := by
  simp [bytes]

variable {headers : List HeaderField}

/-- One line: it is the end of the last header or a header of its own. -/
theorem parseHeaderLine_spells {done : List Bytes} {headers' : List HeaderField} {line : Bytes}
    (hspells : Spells done headers) (h : parseHeaderLine profile headers line = .ok headers') :
    Spells (done ++ [line]) headers' := by
  obtain ⟨hbytes, hempty⟩ := hspells
  unfold parseHeaderLine at h
  split at h
  · next hcontinued =>
    split at h
    · cases h
    · next header hlast =>
      obtain rfl := ok.inj h
      obtain ⟨text, rfl⟩ : ∃ text, line = space :: text := by
        cases line with
        | nil => cases hcontinued
        | cons byte text => exact ⟨text, by rw [Option.some.inj hcontinued]⟩
      have hhdrs : headers = headers.dropLast ++ [header] :=
        (dropLast_append_getLast? header hlast).symm
      have hdone : done ≠ [] := by
        intro hnil
        rw [hempty.mpr hnil] at hlast
        cases hlast
      rw [hhdrs, map_append, map_singleton] at hbytes
      constructor
      · rw [map_append, map_singleton, bytes_continued, intercalate_concat_append,
          hbytes, intercalate_concat _ hdone]
        simp
      · simp
  · split at h
    · cases h
    · next name value hcut =>
      simp only [ite_error_eq_ok, ok.injEq] at h
      obtain ⟨-, -, rfl⟩ := h
      obtain ⟨rfl, -⟩ := cut_eq_some.mp hcut
      have hline : bytes ⟨name, value, []⟩ = name ++ space :: value := by
        simp [bytes]
      refine ⟨?_, by simp⟩
      rw [map_append, map_singleton, hline]
      by_cases hnil : headers = []
      · rw [hnil, hempty.mp hnil]
        rfl
      · have hwords : headers.map bytes ≠ [] := by simpa using hnil
        have hdone : done ≠ [] := fun heq => hnil (hempty.mpr heq)
        rw [intercalate_concat _ hwords, intercalate_concat _ hdone, hbytes]

/-- All lines. -/
theorem parseHeaderLines_spells {lines : List Bytes} {state : ℕ × List HeaderField}
    (h : lines.foldlM (parseHeaderLines profile limits) (0, []) = .ok state) :
    Spells lines state.2 := by
  refine foldlM_induction (P := fun done state => Spells done state.2) h ⟨rfl, by simp⟩ ?_
  intro done line state state' _ hspells hstep
  simp only [parseHeaderLines, bind_eq_ok, pure_eq_ok] at hstep
  obtain ⟨-, -, headers, hline, rfl⟩ := hstep
  exact parseHeaderLine_spells hspells hline

/-- The headers of a block spell it. -/
theorem parseHeaderBlock_ok {block : Bytes}
    (h : parseHeaderBlock profile limits block = .ok headers) :
    [newline].intercalate (headers.map bytes) = block := by
  unfold parseHeaderBlock at h
  split at h
  · next hempty =>
    obtain rfl := ok.inj h
    exact hempty.symm
  · simp only [bind_eq_ok, pure_eq_ok] at h
    obtain ⟨state, hstate, rfl⟩ := h
    rw [(parseHeaderLines_spells hstate).1, intercalate_splitOn]

/-- The number of bytes is computed right. -/
theorem length_headers (headers : List HeaderField) :
    ([newline].intercalate (headers.map bytes)).length
      = (headers.map byteCount).sum + (headers.length - 1) := by
  have hbytes : ∀ header : HeaderField, header.bytes.length = header.byteCount := by
    intro header
    simp only [bytes, byteCount, length_append, length_cons,
      length_flatMap]
    have hmore : (header.continuations.map fun continuation => continuation.length + 1 + 1)
        = header.continuations.map fun continuation => 2 + continuation.length := by
      refine map_congr_left fun continuation _ => ?_
      omega
    rw [hmore]
    omega
  rw [length_intercalate, map_map, length_map]
  congr 2
  exact map_congr_left fun header _ => hbytes header

/-- Headers are emitted before their message as long as all of it fits. -/
theorem emitHeaderObjectBody_ok {message output : Bytes} {separator : Bool}
    (houtput : [newline].intercalate (headers.map bytes) ++
      (if separator then [newline, newline] else []) ++ message = output)
    (hfits : output.length ≤ limits.maxObjectBytes) :
    emitHeaderObjectBody headers message separator limits = .ok output := by
  have hlen : emittedLength headers message separator = output.length := by
    rw [← houtput, length_append, length_append, length_headers, emittedLength]
    cases separator with
    | false | true => simp; omega
  simp only [emitHeaderObjectBody, bind_eq_ok, refuseIf_eq_ok, pure_eq_ok]
  exact ⟨(), by omega, houtput⟩

/-! ### Bodies -/

/-- The bytes a body is emitted as. -/
def emittedBody (objectType : ObjectType) (body : Bytes) : Bytes :=
  if (objectType = .commit ∨ objectType = .tag) ∧ ¬ [newline, newline] <:+: body then
    stripNewline body
  else body

/-- A commit or tag is emitted from its headers and its message. -/
theorem emitHeaderObject_parseHeaders {objectType : ObjectType}
    (htype : objectType = .commit ∨ objectType = .tag) {body : Bytes} {parsed : ParsedHeaders}
    (h : parseHeaders body profile limits = .ok parsed)
    (hfits : body.length ≤ limits.maxObjectBytes) :
    emitHeaderObjectBody parsed.headers (message ⟨body, parsed⟩)
      parsed.hasMessageSeparator limits = .ok (emittedBody objectType body) := by
  unfold parseHeaders at h
  split at h
  · next before after hcut =>
    have hbody := eq_of_cutPair hcut
    have hseparated : [newline, newline] <:+: body := by
      by_contra hnone
      rw [cutPair_eq_none.mpr hnone] at hcut
      cases hcut
    simp only [bind_eq_ok, pure_eq_ok] at h
    obtain ⟨headers, hhdrs, rfl⟩ := h
    have hemitted : emittedBody objectType body = body := if_neg fun hlost => hlost.2 hseparated
    rw [hemitted]
    refine emitHeaderObjectBody_ok ?_ hfits
    -- the message is what follows the separator
    have hmsg : message ⟨body, ⟨headers, before.length + 2, true⟩⟩ = after := by
      simp [message, hbody, drop_append]
    rw [hmsg, parseHeaderBlock_ok hhdrs, hbody]
    simp
  · next hcut =>
    split at h
    · simp only [bind_eq_ok, pure_eq_ok] at h
      obtain ⟨headers, hhdrs, rfl⟩ := h
      have hemitted : emittedBody objectType body = stripNewline body :=
        if_pos ⟨htype, cutPair_eq_none.mp hcut⟩
      have hshorter : (stripNewline body).length ≤ body.length := by
        unfold stripNewline
        split
        · rw [length_dropLast]
          omega
        · exact le_rfl
      rw [hemitted]
      refine emitHeaderObjectBody_ok ?_ (hshorter.trans hfits)
      have hmsg : message ⟨body, ⟨headers, body.length, false⟩⟩ = [] := by
        simp [message]
      rw [hmsg, parseHeaderBlock_ok hhdrs]
      simp
    · cases h

/-- **Emission of a parsed body.**  It succeeds, and drops at most a newline
at the end of a commit or tag without a blank line. -/
theorem emit_parse {objectType : ObjectType} {body : Bytes} {object : ParsedObject}
    (h : parseObjectBody objectType body profile limits = .ok object) :
    emitObjectBody object profile limits = .ok (emittedBody objectType body) := by
  simp only [parseObjectBody, bind_eq_ok, refuseIf_eq_ok] at h
  obtain ⟨-, hsize, h⟩ := h
  have hfits : body.length ≤ limits.maxObjectBytes := Nat.le_of_not_lt hsize
  cases objectType with
  | blob =>
    obtain rfl := pure_eq_ok.mp h
    exact if_neg hsize
  | tree =>
    obtain ⟨entries, hentr, hobj⟩ := bind_eq_ok.mp h
    obtain rfl := pure_eq_ok.mp hobj
    exact emitTree_parseTree hentr
  | commit =>
    simp only [parseCommit, bind_eq_ok, check_eq_ok, pure_eq_ok] at h
    obtain ⟨commit, ⟨parsed, hparsed, hstrict, rfl⟩, rfl⟩ := h
    exact check_eq_ok.mpr ⟨hstrict, emitHeaderObject_parseHeaders (.inl rfl) hparsed hfits⟩
  | tag =>
    simp only [parseTag, bind_eq_ok, check_eq_ok, pure_eq_ok] at h
    obtain ⟨tag, ⟨parsed, hparsed, hstrict, rfl⟩, rfl⟩ := h
    exact check_eq_ok.mpr ⟨hstrict, emitHeaderObject_parseHeaders (.inr rfl) hparsed hfits⟩

/-- **Byte preservation.**  A parsed body is emitted as it was exactly if it is
not a commit or tag that has no blank line and ends in a newline. -/
theorem emit_parse_iff {objectType : ObjectType} {body : Bytes} {profile : AcceptanceProfile}
    {limits : ParseLimits} {object : ParsedObject}
    (h : parseObjectBody objectType body profile limits = .ok object) :
    emitObjectBody object profile limits = .ok body ↔
      ¬ ((objectType = .commit ∨ objectType = .tag) ∧ ¬ [newline, newline] <:+: body ∧
        body.getLast? = some newline) := by
  rw [emit_parse h, emittedBody, ok.injEq]
  split
  · next hhdrs =>
    have hlost : stripNewline body = body ↔ ¬ body.getLast? = some newline := by
      unfold stripNewline
      split
      · next hlast =>
        have hne : body ≠ [] := by
          rintro rfl
          cases hlast
        refine iff_of_false (fun heq => ?_) (not_not.mpr hlast)
        have hlen := congrArg length heq
        have hpos := length_pos_of_ne_nil hne
        rw [length_dropLast] at hlen
        omega
      · next hlast => exact iff_of_true rfl hlast
    tauto
  · tauto

/-- Bounds for the bodies below. -/
def smallLimits : ParseLimits := ⟨1000, 10, 10, 100, 20⟩

/-- A tag with a continued header and a message comes back. -/
theorem emit_parse_iff_tag :
    ∃ object, parseObjectBody .tag (ascii "object x\n y\n\ntext\n") .gitCompatibleImport
        smallLimits = .ok object ∧
      emitObjectBody object .gitCompatibleImport smallLimits
        = .ok (ascii "object x\n y\n\ntext\n") := by
  let object : ParsedObject := .tag ⟨ascii "object x\n y\n\ntext\n",
    ⟨[⟨ascii "object", ascii "x", [ascii "y"]⟩], 13, true⟩⟩
  have hparse : parseObjectBody .tag (ascii "object x\n y\n\ntext\n") .gitCompatibleImport
      smallLimits = .ok object := by rfl
  refine ⟨object, hparse, (emit_parse_iff hparse).mpr ?_⟩
  decide

/-- A commit without a blank line loses its last newline. -/
theorem emit_drops_newline :
    ∃ object, parseObjectBody .commit (ascii "tree x\n") .gitCompatibleImport smallLimits
        = .ok object ∧
      emitObjectBody object .gitCompatibleImport smallLimits = .ok (ascii "tree x") ∧
      ascii "tree x" ≠ ascii "tree x\n" :=
  ⟨.commit ⟨ascii "tree x\n", ⟨[⟨ascii "tree", ascii "x", []⟩], 7, false⟩⟩, rfl, rfl, by decide⟩

/-! ### Emitted trees -/

/-- An accepted entry is read where it stands. -/
theorem parseTreeEntry_bytes {entry : TreeEntry} (h : Accepted profile limits entry)
    (hnul : profile = .strictCreate ∨ 0 ∉ entry.name) (rest : Bytes) :
    parseTreeEntry profile limits (entry.bytes ++ rest) = .ok (entry, rest) := by
  have hspace : space ∉ entry.mode := by
    intro hmem
    have hmode := h.mode
    simp only [validateTreeMode, ite_error_eq_ok, not_or, not_not, all_eq_true] at hmode
    exact absurd (hmode.1.2 _ hmem) (by decide)
  have hname : 0 ∉ entry.name := by
    rcases hnul with hprofile | hnul
    · -- a strict name is printable
      have hstrict := not_not.mp (not_and.mp h.name hprofile)
      simp only [isStrictTreeName, Bool.and_eq_true, all_eq_true] at hstrict
      exact fun hmem => absurd (hstrict.2 0 hmem) (by decide)
    · exact hnul
  have hcut : cut space (entry.bytes ++ rest)
      = some (entry.mode, entry.name ++ 0 :: (entry.objectId ++ rest)) :=
    cut_eq_some.mpr ⟨by simp [TreeEntry.bytes], hspace⟩
  simp only [parseTreeEntry, hcut, cut_eq_some.mpr ⟨rfl, hname⟩, h.mode, bind_eq_ok, refuseIf_eq_ok,
    pure_eq_ok]
  refine ⟨(), trivial, (), h.name, (), ?_, ?_⟩
  · simp [h.width]
  · simp [← h.width]

/-- What the emitter adds is read back. -/
theorem parseTreeEntries_emitted {room : ℕ} {output body : Bytes}
    (hnul : profile = .strictCreate ∨ ∀ entry ∈ entries, 0 ∉ entry.name)
    (hroom : entries.length ≤ room) (hsize : output.length ≤ limits.maxObjectBytes)
    (h : entries.foldlM (emitTreeEntry profile limits) output = .ok body) :
    body.length ≤ limits.maxObjectBytes ∧ ∃ tail, body = output ++ tail ∧
      parseTreeEntries profile limits room tail = .ok entries := by
  induction entries generalizing room output with
  | nil =>
    cases h
    exact ⟨hsize, [], (append_nil _).symm, by cases room <;> rfl⟩
  | cons entry entries ih =>
    obtain ⟨room, rfl⟩ := Nat.exists_eq_add_of_lt hroom
    obtain ⟨next, hemit, hrest⟩ := foldlM_cons_ok.mp h
    simp only [emitTreeEntry, bind_eq_ok, refuseIf_eq_ok, pure_eq_ok] at hemit
    obtain ⟨⟨⟩, hmode, -, hname, -, hwidth, -, hfits, rfl⟩ := hemit
    rw [← length_treeEntry_bytes, ← length_append] at hfits
    obtain ⟨hsize, tail, rfl, hparse⟩ := ih (hnul.imp_right fun h => (forall_mem_cons.mp h).2)
      (Nat.le_add_right _ room) (Nat.le_of_not_lt hfits) hrest
    refine ⟨hsize, entry.bytes ++ tail, append_assoc .., ?_⟩
    have hentry := parseTreeEntry_bytes ⟨hmode, hname, not_not.mp hwidth⟩
      (hnul.imp_right fun h => h entry mem_cons_self) tail
    cases hbytes : entry.bytes ++ tail with
    | nil => simp [TreeEntry.bytes] at hbytes
    | cons byte bytes =>
      rw [hbytes] at hentry
      simp only [parseTreeEntries, bind_eq_ok, pure_eq_ok]
      exact ⟨_, hentry, entries, hparse, rfl⟩

/-- **Trees are read and written both ways.**  A body is parsed to exactly the
entries that are emitted as it.  Only a name with a NUL, which the import
profile lets the emitter write, would be read otherwise. -/
theorem parseTree_iff_emitTree {entries : List TreeEntry} {body : Bytes}
    {profile : AcceptanceProfile} {limits : ParseLimits}
    (hnul : profile = .strictCreate ∨ ∀ entry ∈ entries, 0 ∉ entry.name) :
    parseTree body profile limits = .ok entries ↔ emitTree entries profile limits = .ok body := by
  refine ⟨emitTree_parseTree, fun h => ?_⟩
  simp only [emitTree, bind_eq_ok, refuseIf_eq_ok, check_eq_ok] at h
  obtain ⟨⟨⟩, hwidth, -, hcount, hstrict, h⟩ := h
  obtain ⟨hsize, _, rfl, hparse⟩ :=
    parseTreeEntries_emitted hnul (Nat.le_of_not_lt hcount) (Nat.zero_le _) h
  simp only [parseTree, bind_eq_ok, refuseIf_eq_ok, check_eq_ok, pure_eq_ok]
  exact ⟨(), hwidth, (), Nat.not_lt_of_le hsize, entries, hparse, hstrict, rfl⟩

theorem parseTree_iff_emitTree_file :
    let file : TreeEntry := ⟨ascii "100644", ascii "a", replicate 20 7⟩
    parseTree file.bytes .strictCreate smallLimits = .ok [file] := by
  exact (parseTree_iff_emitTree (.inl rfl)).mpr (by decide)

end Frankengit.GitObject
