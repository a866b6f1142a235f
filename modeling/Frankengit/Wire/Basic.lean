/-
Frankengit/Wire/Basic.lean

The words of the upload-pack and receive-pack protocols (crate `fgit-wire`):
limits, packets, refusals, and the small parsers that the machines share.
Running out of memory is not modelled.
-/
import Frankengit.Lib.Cut
import Frankengit.Crypto.Oid

namespace Frankengit.Wire

open List RefName

open Crypto (digestLen)
open Fallible

abbrev GitObjectFormat := GitHashAlgorithm
abbrev AnyGitOid := Crypto.GitOid

def maxPktLineBytes : ℕ := 65520

structure WireLimits where
  maxPacketBytes : ℕ := maxPktLineBytes
  maxPendingBytes : ℕ := maxPktLineBytes * 2
  maxPacketsPerPush : ℕ := 4096
  maxOutboundBytes : ℕ := 64 * 1024 * 1024
  maxCapabilities : ℕ := 256
  maxCapabilityBytes : ℕ := 4096
  maxWants : ℕ := 16384
  maxHaves : ℕ := 65536
  maxShallows : ℕ := 8192
  maxRefPrefixes : ℕ := 1024
  maxAdvertisedRefs : ℕ := 1000000
  maxFilterParts : ℕ := 32
  maxRefNameBytes : ℕ := 4096

inductive Packet where
  | data (payload : Bytes)
  | flush
  | delimiter
  | responseEnd
deriving DecidableEq

def packetName : Packet → String
  | .data _ => "data"
  | .flush => "flush"
  | .delimiter => "delimiter"
  | .responseEnd => "response end"

inductive WireError where
  | invalidLimit (field : String)
  | invalidPacketLengthHex (offset : ℕ) (byte : UInt8)
  | reservedPacketLength
  | packetTooLarge (declared limit : ℕ)
  | pendingBytesExceeded (limit : ℕ)
  | packetCountExceeded (limit : ℕ)
  | outboundBytesExceeded (limit : ℕ)
  | truncatedPacket (pending : ℕ)
  | missingLineFeed
  | invalidToken (field : String) (offset : ℕ) (byte : UInt8)
  | emptyCapability
  | capabilityTooLarge (limit : ℕ)
  | tooManyCapabilities (limit : ℕ)
  | duplicateCapability (name : Bytes)
  | invalidVersionAdvertisement
  | unsupportedCommand (command : Bytes)
  | illegalTransition (state packet : String)
  | malformedRequestLine (line : Bytes)
  | invalidObjectId (algorithm : GitObjectFormat)
  | objectFormatMismatch (expected observed : GitObjectFormat)
  | wantNotAdvertised (oid : AnyGitOid)
  | wantNotReachable (oid : AnyGitOid)
  | tooManyObjectIds (field : String) (limit : ℕ)
  | missingWant
  | unknownCapability (capability : Bytes)
  | negativeDepth
  | invalidDepth
  | invalidTimestamp
  | unknownDeepenNotRef (name : Bytes)
  | invalidFilter (filter : Bytes)
  | tooManyFilterParts (limit : ℕ)
  | refNameTooLarge (limit : ℕ)
  | invalidRefName
  | tooManyAdvertisedRefs (limit : ℕ)
  | unsortedOrDuplicateAdvertisement
  | packSourceRefused
deriving DecidableEq

variable (limits : WireLimits)

namespace WireLimits

/-- Whether the limits can be worked with. -/
def validate : Except WireError Unit :=
  if ¬ (4 ≤ limits.maxPacketBytes ∧ limits.maxPacketBytes ≤ maxPktLineBytes) then
    .error (.invalidLimit "max_packet_bytes")
  else if limits.maxPendingBytes < limits.maxPacketBytes then
    .error (.invalidLimit "max_pending_bytes")
  else if 0 ∈ [limits.maxPacketsPerPush, limits.maxCapabilities, limits.maxOutboundBytes,
      limits.maxCapabilityBytes, limits.maxWants, limits.maxHaves, limits.maxShallows,
      limits.maxRefPrefixes, limits.maxAdvertisedRefs, limits.maxFilterParts,
      limits.maxRefNameBytes] then
    .error (.invalidLimit "non-zero protocol limit")
  else .ok ()

end WireLimits

/-! ### Lines -/

def carriageReturn : UInt8 := 0x0d

/-- A server line that ends in a line feed. -/
def lineWithoutLf (line : Bytes) : Except WireError Bytes :=
  if line.getLast? ≠ some newline then .error .missingLineFeed
  else
    let text := line.dropLast
    if newline ∈ text ∨ carriageReturn ∈ text ∨ 0 ∈ text then .error (.malformedRequestLine line)
    else .ok text

/-- An advertisement line, which may hold a NUL. -/
def v1AdvertisementLineWithoutLf (line : Bytes) : Except WireError Bytes :=
  if line.getLast? ≠ some newline then .error .missingLineFeed
  else
    let text := line.dropLast
    if newline ∈ text ∨ carriageReturn ∈ text then .error (.malformedRequestLine line)
    else .ok text

theorem v1AdvertisementLineWithoutLf_concat {text : Bytes} (hlf : newline ∉ text)
    (hcr : carriageReturn ∉ text) :
    v1AdvertisementLineWithoutLf (text ++ [newline]) = .ok text := by
  simp [v1AdvertisementLineWithoutLf, hlf, hcr]

/-! ### Output -/

/-- Packets to send, and the bytes they take on the wire. -/
structure Outbound where
  packets : List Packet := []
  used : ℕ := 0

def addOutputPacket (output : Outbound) (packet : Packet) (encodedBytes : ℕ) :
    Except WireError Outbound :=
  if limits.maxOutboundBytes - output.used < encodedBytes then
    .error (.outboundBytesExceeded limits.maxOutboundBytes)
  else .ok ⟨output.packets ++ [packet], output.used + encodedBytes⟩

/-- A data packet with its four length digits. -/
def addOutputLine (output : Outbound) (line : Bytes) : Except WireError Outbound :=
  if limits.maxPacketBytes < line.length + 4 then
    .error (.packetTooLarge (line.length + 4) limits.maxPacketBytes)
  else addOutputPacket limits output (.data line) (line.length + 4)

theorem addOutputPacket_of_fits {limits : WireLimits} {output : Outbound} {packet : Packet}
    {encodedBytes : ℕ} (h : output.used + encodedBytes ≤ limits.maxOutboundBytes) :
    addOutputPacket limits output packet encodedBytes
      = .ok ⟨output.packets ++ [packet], output.used + encodedBytes⟩ := by
  rw [addOutputPacket, if_neg]
  omega

/-! ### Identities -/

def parseObjectId (text : Bytes) (algorithm : GitObjectFormat) : Except WireError AnyGitOid :=
  if text.length ≠ digestLen algorithm * 2 ∨
      ¬ text.all fun byte => isAsciiDigit byte || isAsciiLowercase byte then
    .error (.invalidObjectId algorithm)
  else
    match Crypto.GitOid.fromHex algorithm text with
    | none => .error (.invalidObjectId algorithm)
    | some oid => .ok oid

theorem parseObjectId_toHex (oid : AnyGitOid) :
    parseObjectId oid.toHex oid.algorithm = .ok oid := by
  have hdigits : oid.toHex.all (fun byte => isAsciiDigit byte || isAsciiLowercase byte) = true := by
    rw [all_eq_true]
    intro byte hmem
    obtain ⟨n, hn, rfl⟩ := Hex.eq_digit_of_mem_encode hmem
    have hall : ∀ k : Fin 16,
        (isAsciiDigit (Hex.digit k) || isAsciiLowercase (Hex.digit k)) = true := by decide
    exact hall ⟨n, hn⟩
  rw [parseObjectId, if_neg, Crypto.GitOid.fromHex_toHex]
  simp [hdigits, oid.length_toHex]

/-! ### Ref names -/

def peelSuffix : Bytes := ascii "^\x7b\x7d"

def parseRefName (text : Bytes) (limits : WireLimits) : Except WireError Bytes :=
  if limits.maxRefNameBytes < text.length then .error (.refNameTooLarge limits.maxRefNameBytes)
  else
    match validate text true with
    | .error _ => .error .invalidRefName
    | .ok name => .ok name.bytes

/-- A ref name, or one with the mark of a peeled tag. -/
def parseAdvertisedRefName (text : Bytes) (limits : WireLimits) : Except WireError Bytes :=
  if limits.maxRefNameBytes < text.length then .error (.refNameTooLarge limits.maxRefNameBytes)
  else do
    let base := (text.dropSuffix? peelSuffix).getD text
    let name ← parseRefName base limits
    return if base.length ≠ text.length then name ++ peelSuffix else name

/-- Bytes that no advertised name holds. -/
def separators : Bytes := [0, newline, carriageReturn, space]

theorem parseRefName_ok {text name : Bytes} {limits : WireLimits}
    (h : parseRefName text limits = .ok name) :
    name = text ∧ ∀ byte ∈ text, ¬ byteIsForbidden byte := by
  unfold parseRefName at h
  split_ifs at h
  cases hname : validate text true with
  | error refusal => simp [hname] at h
  | ok ref =>
    rw [hname] at h
    obtain rfl := Except.ok.inj h
    obtain rfl := bytes_of_validate hname
    exact ⟨rfl, ref.allowed⟩

theorem parseAdvertisedRefName_ok {text name : Bytes} {limits : WireLimits}
    (h : parseAdvertisedRefName text limits = .ok name) :
    name = text ∧ ∀ byte ∈ separators, byte ∉ text := by
  unfold parseAdvertisedRefName at h
  split_ifs at h with hlen
  obtain ⟨base, hbase, hreturn⟩ := bind_eq_ok.mp h
  rw [pure_eq_ok] at hreturn
  have hforbidden : ∀ byte ∈ separators, byteIsForbidden byte = true := by
    intro byte hbyte
    simp only [separators, mem_cons, not_mem_nil, or_false] at hbyte
    rcases hbyte with rfl | rfl | rfl | rfl <;> decide
  have hpeel : ∀ byte ∈ separators, byte ∉ peelSuffix := by
    intro byte hbyte
    simp only [separators, mem_cons, not_mem_nil, or_false] at hbyte
    rcases hbyte with rfl | rfl | rfl | rfl <;> decide
  cases hsuffix : text.dropSuffix? peelSuffix with
  | none =>
    rw [hsuffix, Option.getD_none] at hbase hreturn
    obtain ⟨rfl, hallowed⟩ := parseRefName_ok hbase
    rw [if_neg (not_not.mpr rfl)] at hreturn
    refine ⟨hreturn.symm, fun byte hmem htext => ?_⟩
    exact hallowed byte htext (hforbidden byte hmem)
  | some stem =>
    obtain ⟨suffix, rfl, heq⟩ := dropSuffix?_eq_some_iff.mp hsuffix
    obtain rfl := eq_of_beq heq
    rw [hsuffix, Option.getD_some] at hbase hreturn
    obtain ⟨rfl, hallowed⟩ := parseRefName_ok hbase
    have hlonger : base.length ≠ (base ++ peelSuffix).length := by
      rw [length_append]
      have hpos : 0 < peelSuffix.length := by decide
      omega
    rw [if_pos hlonger] at hreturn
    refine ⟨hreturn.symm, fun byte hmem htext => ?_⟩
    rcases mem_append.mp htext with hbyte | hbyte
    · exact hallowed byte hbyte (hforbidden byte hmem)
    · exact hpeel byte hmem hbyte

/-- A repository ref that upload-pack exposes. -/
structure AdvertisedRef where
  oid : AnyGitOid
  name : Bytes
deriving DecidableEq

def AdvertisedRef.new (oid : AnyGitOid) (name : Bytes) (limits : WireLimits) :
    Except WireError AdvertisedRef := do
  let name ← parseAdvertisedRefName name limits
  return ⟨oid, name⟩

end Frankengit.Wire
