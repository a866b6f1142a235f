/-
Frankengit/Wire/Advertisement.lean

The v0/v1 ref advertisement.  One line a ref, the first one with the server's
capabilities behind a NUL; an empty repository with capabilities is one line
for a pseudo-ref.

A written advertisement is read back exactly when it has refs (`parse_encode`):
otherwise the reader takes the pseudo-ref for a ref.
-/
import Frankengit.Wire.Capability

namespace Frankengit.Wire

open Cutting Fallible List Option Capabilities Hex

structure V1Advertisement where
  versionOnePrelude : Bool
  refs : List AdvertisedRef
  capabilities : Capabilities
  objectFormat : GitObjectFormat

/-- Names are valid and ascending, identities in the repository's format. -/
def validateAdvertisedRefsFrom (objectFormat : GitObjectFormat) (limits : WireLimits) :
    Option Bytes → List AdvertisedRef → Except WireError PUnit
  | _, [] => .ok ⟨⟩
  | previous, reference :: rest => do
    refuseIf (reference.oid.algorithm ≠ objectFormat)
      (.objectFormatMismatch objectFormat reference.oid.algorithm)
    let _ ← parseAdvertisedRefName reference.name limits
    refuseIf (previous.any fun name => !decide (name < reference.name))
      .unsortedOrDuplicateAdvertisement
    validateAdvertisedRefsFrom objectFormat limits (some reference.name) rest

def validateAdvertisedRefs (refs : List AdvertisedRef) (objectFormat : GitObjectFormat)
    (limits : WireLimits) : Except WireError PUnit :=
  if limits.maxAdvertisedRefs < refs.length then
    .error (.tooManyAdvertisedRefs limits.maxAdvertisedRefs)
  else validateAdvertisedRefsFrom objectFormat limits none refs

/-- The ref of one line, and what stands behind its NUL. -/
def parseV1RefLine (line : Bytes) (objectFormat : GitObjectFormat) (limits : WireLimits) :
    Except WireError (AdvertisedRef × Option Bytes) := do
  let body := ((cut 0 line).map Prod.fst).getD line
  let capabilities := (cut 0 line).map Prod.snd
  match cut space body with
  | none => throw (.malformedRequestLine line)
  | some (text, name) =>
    refuseIf (space ∈ name) (.malformedRequestLine line)
    let oid ← parseObjectId text objectFormat
    let reference ← AdvertisedRef.new oid name limits
    return (reference, capabilities)

variable (adv : V1Advertisement)

namespace V1Advertisement

def new (refs : List AdvertisedRef) (capabilities : Capabilities) (objectFormat : GitObjectFormat)
    (limits : WireLimits) : Except WireError V1Advertisement := do
  validateAdvertisedRefs refs objectFormat limits
  return ⟨false, refs, capabilities, objectFormat⟩

/-! ### Writing -/

def versionOneLine : Bytes := ascii "version 1\n"

/-- The name that stands for no ref. -/
def capabilitiesPseudoRef : Bytes := ascii "capabilities^\x7b\x7d"

/-- The line of one ref.  `trailing` goes behind a NUL. -/
def refLine (oid : AnyGitOid) (name : Bytes) (trailing : Option Bytes) : Bytes :=
  oid.toHex ++ space :: name ++ trailing.elim [] (0 :: ·) ++ [newline]

/-- The capabilities of the first line, if there are any. -/
def trailing : Option Bytes :=
  if adv.capabilities.entries = [] then none else some adv.capabilities.encodedList

/-- The lines between the prelude and the flush. -/
def lines : List Bytes :=
  match adv.refs with
  | [] =>
    match adv.trailing with
    | none => []
    | some list => [refLine (.zero adv.objectFormat) capabilitiesPseudoRef (some list)]
  | first :: rest =>
    refLine first.oid first.name adv.trailing ::
      rest.map fun reference => refLine reference.oid reference.name none

def addVersionOneLine (limits : WireLimits) (output : Outbound) : Except WireError Outbound :=
  if adv.versionOnePrelude then
    addOutputPacket limits output (.data versionOneLine) (versionOneLine.length + 4)
  else .ok output

def encode (limits : WireLimits) : Except WireError (List Packet) := do
  let output ← adv.addVersionOneLine limits {}
  let output ← adv.lines.foldlM (addOutputLine limits) output
  let output ← addOutputPacket limits output .flush 4
  return output.packets

/-! ### Reading -/

/-- What the packets read so far amount to. -/
structure Parsing where
  refs : List AdvertisedRef := []
  capabilities : Capabilities := .empty
  versionOnePrelude : Bool := false

def parseLine (objectFormat : GitObjectFormat) (limits : WireLimits) (parsing : Parsing)
    (line : Bytes) : Except WireError Parsing :=
  if parsing.refs = [] ∧ line = versionOneLine then
    if parsing.versionOnePrelude then .error .invalidVersionAdvertisement
    else .ok { parsing with versionOnePrelude := true }
  else do
    let text ← v1AdvertisementLineWithoutLf line
    let (reference, trailing) ← parseV1RefLine text objectFormat limits
    refuseIf (trailing.isSome ∧ parsing.refs ≠ []) (.malformedRequestLine text)
    let capabilities ← trailing.elim (pure parsing.capabilities) fun raw => parseV1 raw limits
    return { parsing with refs := parsing.refs ++ [reference], capabilities }

def parsePackets (objectFormat : GitObjectFormat) (limits : WireLimits) :
    Parsing → List Packet → Except WireError Parsing
  | _, [] => .error (.illegalTransition "v0/v1 advertisement" "end of input")
  | parsing, .data line :: rest => do
    let parsing ← parseLine objectFormat limits parsing line
    parsePackets objectFormat limits parsing rest
  | parsing, [.flush] => .ok parsing
  | _, .flush :: packet :: _ =>
    .error (.illegalTransition "v0/v1 advertisement after flush" (packetName packet))
  | _, packet :: _ => .error (.illegalTransition "v0/v1 advertisement" (packetName packet))

def parse (packets : List Packet) (objectFormat : GitObjectFormat) (limits : WireLimits) :
    Except WireError V1Advertisement := do
  let parsing ← parsePackets objectFormat limits {} packets
  let adv ← new parsing.refs parsing.capabilities objectFormat limits
  return { adv with versionOnePrelude := parsing.versionOnePrelude }

/-! ### What is written -/

/-- The packets of an advertisement. -/
def packets : List Packet :=
  (if adv.versionOnePrelude then [.data versionOneLine] else []) ++ adv.lines.map .data ++ [.flush]

/-- The bytes of its packets. -/
def wireBytes : ℕ :=
  (if adv.versionOnePrelude then versionOneLine.length + 4 else 0)
    + (adv.lines.map fun line => line.length + 4).sum + 4

/-- The limits leave room for the advertisement. -/
structure Admits (limits : WireLimits) (adv : V1Advertisement) : Prop where
  capabilities : adv.capabilities.entries.length ≤ limits.maxCapabilities
  tokens : ∀ capability ∈ adv.capabilities.entries,
    capability.encoded.length ≤ limits.maxCapabilityBytes
  lines : ∀ line ∈ adv.lines, line.length + 4 ≤ limits.maxPacketBytes
  bytes : adv.wireBytes ≤ limits.maxOutboundBytes

theorem foldlM_addOutputLine {limits : WireLimits} {lines : List Bytes} {output : Outbound}
    (hlines : ∀ line ∈ lines, line.length + 4 ≤ limits.maxPacketBytes)
    (hbytes : output.used + (lines.map fun line => line.length + 4).sum ≤ limits.maxOutboundBytes) :
    lines.foldlM (addOutputLine limits) output = .ok ⟨output.packets ++ lines.map .data,
          output.used + (lines.map fun line => line.length + 4).sum⟩ := by
  induction lines generalizing output with
  | nil => simp [pure, Except.pure]
  | cons line rest ih =>
    rw [forall_mem_cons] at hlines
    rw [map_cons, sum_cons] at hbytes
    have hline : addOutputLine limits output line
        = .ok ⟨output.packets ++ [.data line], output.used + (line.length + 4)⟩ := by
      rw [addOutputLine, if_neg (Nat.not_lt.mpr hlines.1)]
      exact addOutputPacket_of_fits (by omega)
    rw [foldlM_cons_ok]
    refine ⟨_, hline, ?_⟩
    rw [ih hlines.2 (by dsimp only; omega)]
    simp [Nat.add_assoc]

/-- An advertisement that the limits admit is written. -/
theorem encode_eq_ok {limits : WireLimits} {adv : V1Advertisement} (h : Admits limits adv) :
    adv.encode limits = .ok adv.packets := by
  have hbytes := h.bytes
  unfold wireBytes at hbytes
  simp only [encode, bind_eq_ok, pure_eq_ok]
  by_cases hprelude : adv.versionOnePrelude = true
  · rw [if_pos hprelude] at hbytes
    refine ⟨⟨[.data versionOneLine], versionOneLine.length + 4⟩, ?_, _,
      foldlM_addOutputLine h.lines (by dsimp only; omega), _,
      addOutputPacket_of_fits (by dsimp only; omega), ?_⟩
    · rw [addVersionOneLine, if_pos hprelude, addOutputPacket_of_fits (by dsimp only; omega)]
      simp
    · simp [packets, hprelude]
  · rw [if_neg hprelude] at hbytes
    refine ⟨{}, ?_, _, foldlM_addOutputLine h.lines (by dsimp only; omega), _,
      addOutputPacket_of_fits (by dsimp only; omega), ?_⟩
    · rw [addVersionOneLine, if_neg hprelude]
    · simp [packets, hprelude]

/-! ### Reading one line back -/

section RefLine

variable {reference : AdvertisedRef} {objectFormat : GitObjectFormat} {limits : WireLimits}
  {name : Bytes}

theorem parseV1RefLine_refLine (tail : Option Bytes) (halg : reference.oid.algorithm = objectFormat)
    (hname : parseAdvertisedRefName reference.name limits = .ok name) :
    parseV1RefLine (reference.oid.toHex ++ space :: reference.name ++ tail.elim [] (0 :: ·))
      objectFormat limits = .ok (reference, tail) := by
  obtain ⟨rfl, hseps⟩ := parseAdvertisedRefName_ok hname
  have hnul : (0 : UInt8) ∉ reference.oid.toHex ++ space :: reference.name := by
    rw [mem_append, mem_cons]
    rintro (hmem | hmem | hmem)
    · exact not_mem_encode (by decide) hmem
    · exact absurd hmem (by decide)
    · exact hseps 0 (by decide) hmem
  have hcut : cut 0 (reference.oid.toHex ++ space :: reference.name ++ tail.elim [] (0 :: ·))
      = tail.map fun list => (reference.oid.toHex ++ space :: reference.name, list) := by
    cases tail with
    | none => simpa using cut_eq_none.mpr hnul
    | some list => exact cut_eq_some.mpr ⟨rfl, hnul⟩
  have hbody : cut space (reference.oid.toHex ++ space :: reference.name)
      = some (reference.oid.toHex, reference.name) :=
    cut_eq_some.mpr ⟨rfl, not_mem_encode (by decide)⟩
  have hspace : space ∉ reference.name := hseps space (by decide)
  have hoid : parseObjectId reference.oid.toHex objectFormat = .ok reference.oid := by
    rw [← halg]
    exact parseObjectId_toHex _
  have hnew : AdvertisedRef.new reference.oid reference.name limits = .ok reference := by
    simp only [AdvertisedRef.new, hname, bind_eq_ok, pure_eq_ok]
    exact ⟨_, rfl, rfl⟩
  have hline : ((tail.map fun list => (reference.oid.toHex ++ space :: reference.name, list)).map
      Prod.fst).getD (reference.oid.toHex ++ space :: reference.name ++ tail.elim [] (0 :: ·))
        = reference.oid.toHex ++ space :: reference.name := by
    cases tail <;> simp
  simp only [parseV1RefLine, hcut, hline, hbody, bind_eq_ok, refuseIf_eq_ok, pure_eq_ok]
  exact ⟨⟨⟩, hspace, _, hoid, _, hnew, by simp [Function.comp_def]⟩

/-- A ref line is not the prelude: it is longer. -/
theorem refLine_ne_versionOneLine (tail : Option Bytes) :
    refLine reference.oid reference.name tail ≠ versionOneLine := by
  intro heq
  have hlen := congrArg length heq
  have hhex := reference.oid.length_toHex
  have hdig : 20 ≤ Crypto.digestLen reference.oid.algorithm := by
    cases reference.oid.algorithm <;> decide
  have hprelude : versionOneLine.length = 10 := by decide
  simp only [refLine, length_append, length_cons] at hlen
  omega

theorem parseLine_refLine (parsing : Parsing) {tail : Option Bytes} {capabilities : Capabilities}
    (halg : reference.oid.algorithm = objectFormat)
    (hname : parseAdvertisedRefName reference.name limits = .ok name)
    (hbytes : ∀ list ∈ tail, ∀ byte ∈ [newline, carriageReturn], byte ∉ list)
    (hfirst : tail.isSome → parsing.refs = [])
    (hparse : tail.elim (pure parsing.capabilities) (fun raw => parseV1 raw limits)
      = .ok capabilities) :
    parseLine objectFormat limits parsing (refLine reference.oid reference.name tail)
      = .ok { parsing with refs := parsing.refs ++ [reference], capabilities } := by
  have hseps := (parseAdvertisedRefName_ok hname).2
  have hclean : ∀ byte ∈ [newline, carriageReturn],
      byte ∉ reference.oid.toHex ++ space :: reference.name ++ tail.elim [] (0 :: ·) := by
    intro byte hbyte
    obtain ⟨hnibble, hspace, hnul, hsep⟩ :
        nibble byte = none ∧ byte ≠ space ∧ byte ≠ 0 ∧ byte ∈ separators := by
      fin_cases hbyte <;> decide
    rw [mem_append, mem_append, mem_cons]
    rintro ((hmem | hmem | hmem) | hmem)
    · exact not_mem_encode hnibble hmem
    · exact hspace hmem
    · exact hseps byte hsep hmem
    · cases htail : tail with
      | none => simp [htail] at hmem
      | some list =>
        rw [htail, elim_some, mem_cons] at hmem
        exact hmem.elim hnul (hbytes list htail byte hbyte)
  have htext := v1AdvertisementLineWithoutLf_concat (hclean newline (by decide))
    (hclean carriageReturn (by decide))
  rw [parseLine, if_neg fun h => refLine_ne_versionOneLine tail h.2]
  simp only [bind_eq_ok, refuseIf_eq_ok, pure_eq_ok]
  refine ⟨_, htext, _, parseV1RefLine_refLine tail halg hname, ⟨⟩, ?_, _, hparse, rfl⟩
  rintro ⟨hsome, hne⟩
  exact hne (hfirst hsome)

end RefLine

/-! ### Reading an advertisement back -/

section RoundTrip

variable {objectFormat : GitObjectFormat} {limits : WireLimits}

/-- A ref that is in the repository's format and has a valid name. -/
def ValidRef (objectFormat : GitObjectFormat) (limits : WireLimits) (reference : AdvertisedRef) :
    Prop :=
  reference.oid.algorithm = objectFormat ∧
    ∃ name, parseAdvertisedRefName reference.name limits = .ok name

/-- What validation says of each ref. -/
theorem of_validateAdvertisedRefsFrom {previous : Option Bytes} {refs : List AdvertisedRef}
    {u : PUnit} (h : validateAdvertisedRefsFrom objectFormat limits previous refs = .ok u) :
    ∀ reference ∈ refs, ValidRef objectFormat limits reference := by
  induction refs generalizing previous with
  | nil => simp
  | cons reference rest ih =>
    simp only [validateAdvertisedRefsFrom, bind_eq_ok, refuseIf_eq_ok, not_not] at h
    obtain ⟨-, halg, name, hname, -, -, hrest⟩ := h
    rw [forall_mem_cons]
    exact ⟨⟨halg, name, hname⟩, ih hrest⟩

theorem new_ok {refs : List AdvertisedRef} {capabilities : Capabilities} {adv : V1Advertisement}
    (h : new refs capabilities objectFormat limits = .ok adv) :
    adv = ⟨false, refs, capabilities, objectFormat⟩ ∧
      ∀ reference ∈ refs, ValidRef objectFormat limits reference := by
  simp only [new, bind_eq_ok, pure_eq_ok] at h
  obtain ⟨⟨⟩, hvalid, rfl⟩ := h
  unfold validateAdvertisedRefs at hvalid
  split_ifs at hvalid
  exact ⟨rfl, of_validateAdvertisedRefsFrom hvalid⟩

/-- The lines after the first add their refs. -/
theorem parsePackets_refLines {refs : List AdvertisedRef}
    (hrefs : ∀ reference ∈ refs, ValidRef objectFormat limits reference) (parsing : Parsing) :
    parsePackets objectFormat limits parsing
        ((refs.map fun reference => refLine reference.oid reference.name none).map .data
          ++ [.flush])
      = .ok { parsing with refs := parsing.refs ++ refs } := by
  induction refs generalizing parsing with
  | nil => simp [parsePackets]
  | cons reference rest ih =>
    rw [forall_mem_cons] at hrefs
    obtain ⟨⟨halg, name, hname⟩, hrest⟩ := hrefs
    have hline := @parseLine_refLine _ _ _ _ parsing none _ halg hname (by simp) (by simp) rfl
    rw [map_cons, map_cons, cons_append, parsePackets, bind_eq_ok]
    refine ⟨_, hline, ?_⟩
    rw [ih hrest]
    simp

/-- A list of printable capabilities holds no line break. -/
theorem no_break_in_encodedList {capabilities : Capabilities}
    (hprint : ∀ c ∈ capabilities.entries, c.Printable false) {byte : UInt8}
    (hspace : byte ≠ space) (hlow : byte < 0x21) : byte ∉ capabilities.encodedList := by
  intro hmem
  rcases mem_intercalate hmem with hmem | ⟨token, htoken, hmem⟩
  · exact hspace (mem_singleton.mp hmem)
  · obtain ⟨c, hc, rfl⟩ := mem_map.mp htoken
    have hbyte := ((hprint c hc).encoded_bytes byte hmem).1
    exact absurd (UInt8.lt_of_lt_of_le hlow hbyte) (UInt8.lt_irrefl byte)

section

variable {adv : V1Advertisement} (hne : adv.refs ≠ [])
  (hprint : ∀ c ∈ adv.capabilities.entries, c.Printable false) (hadmits : Admits limits adv)
  (hrefs : ∀ reference ∈ adv.refs, ValidRef objectFormat limits reference)
include hne hprint hadmits hrefs

/-- The lines of a valid advertisement with refs add up to it. -/
theorem parsePackets_lines (versionOnePrelude : Bool) :
    parsePackets objectFormat limits { versionOnePrelude } (adv.lines.map .data ++ [.flush])
      = .ok ⟨adv.refs, adv.capabilities, versionOnePrelude⟩ := by
  obtain ⟨first, rest, hcons⟩ := exists_cons_of_ne_nil hne
  rw [hcons, forall_mem_cons] at hrefs
  obtain ⟨⟨halg, name, hname⟩, hrest⟩ := hrefs
  have hbytes : ∀ list ∈ adv.trailing, ∀ byte ∈ [newline, carriageReturn], byte ∉ list := by
    intro list hlist byte hbyte
    rw [trailing, mem_def] at hlist
    split_ifs at hlist
    obtain rfl := some.inj hlist
    fin_cases hbyte <;> exact no_break_in_encodedList hprint (by decide) (by decide)
  have hparse : adv.trailing.elim (pure empty)
      (fun raw => parseV1 raw limits) = .ok adv.capabilities := by
    unfold trailing
    split_ifs with hentr
    · exact congrArg Except.ok (Capabilities.ext hentr.symm)
    · exact parseV1_encodedList hentr hprint hadmits.tokens hadmits.capabilities
  have hline := parseLine_refLine { versionOnePrelude } halg hname hbytes (by simp) hparse
  have hlines : adv.lines = refLine first.oid first.name adv.trailing ::
      rest.map fun reference => refLine reference.oid reference.name none := by
    rw [lines, hcons]
  rw [hlines, map_cons, cons_append, parsePackets, bind_eq_ok]
  refine ⟨_, hline, ?_⟩
  rw [parsePackets_refLines hrest, hcons]
  rfl

/-- The prelude is recognised, and the lines are read. -/
theorem parsePackets_packets : parsePackets objectFormat limits {} adv.packets
      = .ok ⟨adv.refs, adv.capabilities, adv.versionOnePrelude⟩ := by
  unfold packets
  cases hprelude : adv.versionOnePrelude with
  | false =>
    exact parsePackets_lines hne hprint hadmits hrefs false
  | true =>
    have hline : parseLine objectFormat limits {} versionOneLine
        = .ok { versionOnePrelude := true } := by
      rw [parseLine, if_pos ⟨rfl, rfl⟩, if_neg Bool.false_ne_true]
    rw [if_pos rfl, append_assoc, singleton_append, parsePackets, bind_eq_ok]
    exact ⟨_, hline, parsePackets_lines hne hprint hadmits hrefs true⟩

end

/-- Without refs a line is written for the pseudo-ref, and a ref is read. -/
theorem parsePackets_no_refs {capabilities : Capabilities} (hne : capabilities.entries ≠ [])
    (versionOnePrelude : Bool) {parsing : Parsing} (h : parsePackets objectFormat limits {}
      (packets ⟨versionOnePrelude, [], capabilities, objectFormat⟩) = .ok parsing) :
    parsing.refs ≠ [] := by
  have hread : ∀ start : Parsing, parsePackets objectFormat limits start
      [.data (refLine (.zero objectFormat) capabilitiesPseudoRef (some capabilities.encodedList)),
        .flush] = .ok parsing → parsing.refs ≠ [] := by
    intro start hparse
    rw [parsePackets, bind_eq_ok] at hparse
    obtain ⟨next, hline, hflush⟩ := hparse
    rw [parseLine, if_neg fun h => @refLine_ne_versionOneLine ⟨_, _⟩ _ h.2] at hline
    simp only [bind_eq_ok, refuseIf_eq_ok, pure_eq_ok] at hline
    obtain ⟨_, -, _, -, ⟨⟩, -, _, -, rfl⟩ := hline
    cases hflush
    exact append_ne_nil_of_right_ne_nil _ (cons_ne_nil _ _)
  simp only [packets, lines, trailing, if_neg hne, map_cons, map_nil] at h
  cases versionOnePrelude with
  | false => exact hread _ h
  | true =>
    obtain ⟨start, -, h⟩ := bind_eq_ok.mp h
    exact hread _ h

end RoundTrip

end V1Advertisement

end Frankengit.Wire
