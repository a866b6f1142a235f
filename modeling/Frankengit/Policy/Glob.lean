/-
Frankengit/Policy/Glob.lean

Ref patterns (`fgit-policy`, `glob.rs`).  A pattern is a list of segments;
`*` stands for any text within one segment and a final `**` for one or more
further segments.  `compile` checks a pattern and brings it to its canonical
spelling; `matchesName` decides a name segment by segment.

`segmentMatches` is the source's scan with one backtracking point.  The scan
keeps what is left of the pattern and of the text; the backtracking point is
what follows the last star and the text left when the star was met, from
which never less is left than from the place of the scan.  That fact is an
argument of the loop and bounds it.
-/
import Frankengit.Types.Basic

namespace Frankengit.Policy

open List UInt8

inductive RefPatternRefusal where
  | empty
  | tooLong (observed limit : ℕ)
  | tooManySegments (observed limit : ℕ)
  | segmentEmpty (index : ℕ)
  | doubleStarNotTrailing (index : ℕ)
  | byteNotPermitted (offset : ℕ) (byte : UInt8)
deriving DecidableEq

/-- A compiled pattern. -/
@[ext] structure RefPattern where
  source : Bytes
  segments : List Bytes
  trailingDoubleStar : Bool
deriving DecidableEq

namespace RefPattern

def maxPatternLen : ℕ := 512
def maxPatternSegments : ℕ := 32
def star : UInt8 := 0x2a
def slash : UInt8 := 0x2f
def doubleStar : Bytes := [star, star]

/-! ### Compilation -/

def byteIsPermitted (byte : UInt8) : Bool :=
  0x21 ≤ byte && byte ≤ 0x7e && !([0x7e, 0x5e, 0x3a, 0x3f, 0x5b, 0x5c].contains byte)

/-- A run of stars is one star. -/
def collapseStars (segment : Bytes) : Bytes :=
  segment.foldl
    (fun out byte => if byte = star ∧ out.getLast? = some star then out else out ++ [byte])
    []

def canonicalSource (segments : List Bytes) (trailingDoubleStar : Bool) : Bytes :=
  [slash].intercalate (segments ++ if trailingDoubleStar then [doubleStar] else [])

/-- The segments in order, and whether the last one is a double star. -/
def compileSegments (last : ℕ) :
    ℕ → List Bytes → List Bytes → Except RefPatternRefusal (List Bytes × Bool)
  | _, [], segments => .ok (segments, false)
  | index, segment :: rest, segments =>
    if segment = [] then .error (.segmentEmpty index)
    else if segment = doubleStar then
      if index ≠ last then .error (.doubleStarNotTrailing index) else .ok (segments, true)
    else compileSegments last (index + 1) rest (segments ++ [collapseStars segment])

def compile (source : Bytes) : Except RefPatternRefusal RefPattern :=
  if source = [] then .error .empty
  else if maxPatternLen < source.length then .error (.tooLong source.length maxPatternLen)
  else
    match source.zipIdx.find? fun e => !byteIsPermitted e.1 with
    | some (byte, offset) => .error (.byteNotPermitted offset byte)
    | none =>
      let raw := source.splitOn slash
      if maxPatternSegments < raw.length then
        .error (.tooManySegments raw.length maxPatternSegments)
      else
        (compileSegments (raw.length - 1) 0 raw []).map fun (segments, trailing) =>
          ⟨canonicalSource segments trailing, segments, trailing⟩

/-! ### Matching -/

/-- The scan of one segment. -/
def segmentLoop (pattern text : Bytes) (retry : Option (Bytes × Bytes))
    (hretry : ∀ r ∈ retry, text.length ≤ r.2.length) : Bool :=
  match text with
  | [] => pattern.all (· == star)
  | byte :: text' =>
    if hbyte : pattern.head? = some byte then
      segmentLoop pattern.tail text' retry fun r hr => Nat.le_of_succ_le (hretry r hr)
    else if hstar : pattern.head? = some star then
      segmentLoop pattern.tail (byte :: text') (some (pattern.tail, byte :: text'))
        fun r hr => by cases hr; rfl
    else
      match hr : retry with
      | some (pattern', _ :: resume) =>
        segmentLoop pattern' resume (some (pattern', resume)) fun r hr => by cases hr; rfl
      | _ => false
termination_by (retry.elim (text.length + 1) (·.2.length), pattern.length + text.length)
decreasing_by
  · have hlen : pattern.tail.length + 1 = pattern.length := by
      cases pattern <;> simp_all
    cases retry with
    | none =>
      left
      simp
    | some r =>
      right
      simp only [length_cons]
      omega
  · have hlen : pattern.tail.length + 1 = pattern.length := by
      cases pattern <;> simp_all
    cases retry with
    | none =>
      left
      simp
    | some r =>
      have hle : (byte :: text').length ≤ r.2.length := hretry r rfl
      rcases hle.lt_or_eq with hlt | heq
      · left
        exact hlt
      · simp only [Option.elim_some, heq]
        right
        simp only [← heq, length_cons]
        omega
  · left
    simp

def segmentMatches (pattern text : Bytes) : Bool :=
  segmentLoop pattern text none nofun

def matchesName (pattern : RefPattern) (name : Bytes) : Bool :=
  let components := name.splitOn slash
  (if pattern.trailingDoubleStar then pattern.segments.length < components.length
    else components.length = pattern.segments.length)
  && (pattern.segments.zip components).all fun (segment, component) =>
    segmentMatches segment component

/-! ### Order -/

/-- The order of the source: the spelling, the segments, the flag.  A
segment is marked, so that the end of the segments comes before any. -/
def key (pattern : RefPattern) : List (List ℕ) :=
  pattern.source.map UInt8.toNat
    :: (pattern.segments.map (fun segment => 1 :: segment.map UInt8.toNat)
      ++ [[], [pattern.trailingDoubleStar.toNat]])

theorem toNat_map_injective : Function.Injective fun bytes : Bytes => bytes.map UInt8.toNat :=
  map_injective_iff.mpr fun _ _ => UInt8.toNat_inj.mp

/-- Marked segments end where the first unmarked element is. -/
theorem marked_injective {ps qs : List Bytes} {s t : List (List ℕ)}
    (h : ps.map (fun p => 1 :: p.map toNat) ++ [] :: s
      = qs.map (fun q => 1 :: q.map toNat) ++ [] :: t) : ps = qs ∧ s = t := by
  induction ps generalizing qs with
  | nil =>
    cases qs with
    | nil => exact ⟨rfl, (cons.inj h).2⟩
    | cons q qs => cases (cons.inj h).1
  | cons p ps ih =>
    cases qs with
    | nil => cases (cons.inj h).1
    | cons q qs =>
      obtain ⟨hhead, htail⟩ := cons.inj h
      obtain ⟨rfl, hst⟩ := ih htail
      exact ⟨by rw [toNat_map_injective (cons.inj hhead).2], hst⟩

theorem key_injective : Function.Injective key := by
  intro a b h
  obtain ⟨hsrc, hrest⟩ := cons.inj h
  obtain ⟨hsegments, hflag⟩ := marked_injective hrest
  refine RefPattern.ext (toNat_map_injective hsrc) hsegments ?_
  cases ha : a.trailingDoubleStar <;> cases hb : b.trailingDoubleStar <;> simp [ha, hb] at hflag ⊢

end RefPattern

end Frankengit.Policy
