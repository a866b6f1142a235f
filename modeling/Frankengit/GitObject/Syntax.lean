/-
Frankengit/GitObject/Syntax.lean

Bodies of native Git objects (crate `fgit-git-object`): bounded parsers for
trees, commits and annotated tags, and the emitters that write a parsed body
back.

A commit or tag keeps its raw bytes and the place where its message starts,
but it is emitted from its header fields.  Cursors into the body are modelled
by the bytes that remain; running out of memory is not modelled.
-/
import Frankengit.Lib.Cut
import Frankengit.Lib.Fallible
import Frankengit.Types.Basic

namespace Frankengit.GitObject

open Cutting Fallible

inductive ObjectType where
  | blob | tree | commit | tag
deriving DecidableEq

inductive AcceptanceProfile where
  | strictCreate | gitCompatibleImport
deriving DecidableEq

structure ParseLimits where
  maxObjectBytes : ℕ
  maxTreeEntries : ℕ
  maxHeaderLines : ℕ
  maxHeaderLineBytes : ℕ
  treeReferenceBytes : ℕ

inductive ObjectError where
  | objectTooLarge (limit : ℕ)
  | unsupportedTreeReferenceWidth (width : ℕ)
  | missingTreeModeSeparator
  | missingTreeNameTerminator
  | malformedTreeMode
  | nonCanonicalTreeMode
  | invalidStrictTreeName
  | truncatedTreeReference
  | tooManyTreeEntries (limit : ℕ)
  | treeEntriesOutOfOrder
  | duplicateTreeEntry
  | missingHeaderMessageSeparator
  | malformedHeader
  | orphanHeaderContinuation
  | invalidStrictHeaderName
  | headerLimitExceeded (limit : ℕ)
  | missingOrDuplicateCommitTree
  | missingOrDuplicateCommitIdentity
  | strictCommitHeaderOrder
  | nulInStrictCommit
  | malformedObjectReference
  | malformedSignatureDate
  | missingOrDuplicateTagHeader
  | invalidTagTargetType
  | invalidTagName
  | strictTagHeaderOrder
deriving DecidableEq

/-! ### Bytes -/

variable (byte : UInt8)

def isAsciiHexdigit : Bool :=
  isAsciiDigit byte || (0x41 ≤ byte && byte ≤ 0x46) || (0x61 ≤ byte && byte ≤ 0x66)

/-- Space, tab, line feed, form feed and carriage return. -/
def isAsciiWhitespace : Bool := byte ∈ [0x20, 0x09, 0x0a, 0x0c, 0x0d]

/-- Neither a control byte nor DEL. -/
def isPrintable : Bool := 0x20 ≤ byte && byte ≠ 0x7f

/-! ### Trees -/

structure TreeEntry where
  mode : Bytes
  name : Bytes
  objectId : Bytes
deriving DecidableEq

variable (entry : TreeEntry)

def TreeEntry.isTree : Bool :=
  entry.mode = ascii "40000" || entry.mode = ascii "040000"

/-- The bytes an entry sorts by: a directory as if its name ended in a slash. -/
def TreeEntry.sortBytes : Bytes :=
  entry.name ++ if entry.isTree then [0x2f] else []

def compareSortBytes : Bytes → Bytes → Ordering
  | [], [] => .eq
  | [], _ :: _ => .lt
  | _ :: _, [] => .gt
  | l :: left, r :: right =>
    match compare l r with
    | .eq => compareSortBytes left right
    | ordering => ordering

def compareTreeEntries (left right : TreeEntry) : Ordering :=
  compareSortBytes left.sortBytes right.sortBytes

def validateTreeReferenceWidth (width : ℕ) : Except ObjectError Unit :=
  if width = 20 ∨ width = 32 then .ok () else .error (.unsupportedTreeReferenceWidth width)

def validateTreeMode (mode : Bytes) (profile : AcceptanceProfile) : Except ObjectError Unit :=
  if mode = [] ∨ ¬ mode.all fun byte => 0x30 ≤ byte && byte ≤ 0x37 then .error .malformedTreeMode
  else if profile = .strictCreate ∧
      mode ∉ [ascii "40000", ascii "100644", ascii "100755", ascii "120000", ascii "160000"] then
    .error .nonCanonicalTreeMode
  else .ok ()

def isStrictTreeName (name : Bytes) : Bool :=
  name ≠ [] && 0x2f ∉ name && name ≠ ascii "." && name ≠ ascii ".." && name.all isPrintable

/-- A tree to be created: distinct names, in tree order. -/
def validateStrictTree (entries : List TreeEntry) : Except ObjectError Unit :=
  if ¬ (entries.map TreeEntry.name).Nodup then .error .duplicateTreeEntry
  else if ¬ entries.IsChain fun left right => compareTreeEntries left right = .lt then
    .error .treeEntriesOutOfOrder
  else .ok ()

variable (profile : AcceptanceProfile) (limits : ParseLimits)

/-- One entry and the bytes after it. -/
def parseTreeEntry (bytes : Bytes) : Except ObjectError (TreeEntry × Bytes) :=
  match cut space bytes with
  | none => throw .missingTreeModeSeparator
  | some (mode, afterMode) => do
    validateTreeMode mode profile
    match cut 0 afterMode with
    | none => throw .missingTreeNameTerminator
    | some (name, afterName) =>
      refuseIf (profile = .strictCreate ∧ ¬ isStrictTreeName name) .invalidStrictTreeName
      refuseIf (afterName.length < limits.treeReferenceBytes) .truncatedTreeReference
      return (⟨mode, name, afterName.take limits.treeReferenceBytes⟩,
        afterName.drop limits.treeReferenceBytes)

/-- The loop over a body; `room` entries may still be added. -/
def parseTreeEntries (profile : AcceptanceProfile) (limits : ParseLimits) :
    ℕ → Bytes → Except ObjectError (List TreeEntry)
  | _, [] => .ok []
  | 0, _ :: _ => .error (.tooManyTreeEntries limits.maxTreeEntries)
  | room + 1, byte :: bytes => do
    let (entry, rest) ← parseTreeEntry profile limits (byte :: bytes)
    let entries ← parseTreeEntries profile limits room rest
    return entry :: entries

def parseTree (body : Bytes) (profile : AcceptanceProfile) (limits : ParseLimits) :
    Except ObjectError (List TreeEntry) := do
  validateTreeReferenceWidth limits.treeReferenceBytes
  refuseIf (limits.maxObjectBytes < body.length) (.objectTooLarge limits.maxObjectBytes)
  let entries ← parseTreeEntries profile limits limits.maxTreeEntries body
  if profile = .strictCreate then validateStrictTree entries
  return entries

/-- The bytes of one entry. -/
def TreeEntry.bytes : Bytes :=
  entry.mode ++ space :: (entry.name ++ 0 :: entry.objectId)

def emitTreeEntry (output : Bytes) (entry : TreeEntry) : Except ObjectError Bytes := do
  validateTreeMode entry.mode profile
  refuseIf (profile = .strictCreate ∧ ¬ isStrictTreeName entry.name) .invalidStrictTreeName
  refuseIf (entry.objectId.length ≠ limits.treeReferenceBytes) .truncatedTreeReference
  refuseIf (limits.maxObjectBytes < output.length +
      (entry.mode.length + entry.name.length + entry.objectId.length + 2))
    (.objectTooLarge limits.maxObjectBytes)
  return output ++ entry.bytes

def emitTree (entries : List TreeEntry) (profile : AcceptanceProfile) (limits : ParseLimits) :
    Except ObjectError Bytes := do
  validateTreeReferenceWidth limits.treeReferenceBytes
  refuseIf (limits.maxTreeEntries < entries.length) (.tooManyTreeEntries limits.maxTreeEntries)
  if profile = .strictCreate then validateStrictTree entries
  entries.foldlM (emitTreeEntry profile limits) []

/-! ### Headers -/

structure HeaderField where
  name : Bytes
  value : Bytes
  continuations : List Bytes
deriving DecidableEq

/-- The headers before a message, where the message starts, and whether a
blank line separates them. -/
structure ParsedHeaders where
  headers : List HeaderField
  messageStart : ℕ
  hasMessageSeparator : Bool

def isStrictHeaderName (name : Bytes) : Bool :=
  name.all fun byte => isAsciiLowercase byte || isAsciiDigit byte || byte = 0x2d

variable (headers : List HeaderField)

/-- Take one line into the headers: a continuation of the last one, or a new
one. -/
def parseHeaderLine (line : Bytes) : Except ObjectError (List HeaderField) :=
  if line.head? = some space then
    match headers.getLast? with
    | none => .error .orphanHeaderContinuation
    | some header =>
      .ok (headers.dropLast ++
        [{ header with continuations := header.continuations ++ [line.tail] }])
  else
    match cut space line with
    | none => .error .malformedHeader
    | some (name, value) =>
      if name = [] then .error .malformedHeader
      else if profile = .strictCreate ∧ ¬ isStrictHeaderName name then
        .error .invalidStrictHeaderName
      else .ok (headers ++ [⟨name, value, []⟩])

/-- The loop over header lines, with the number of lines met. -/
def parseHeaderLines (limits : ParseLimits) (state : ℕ × List HeaderField) (line : Bytes) :
    Except ObjectError (ℕ × List HeaderField) := do
  let lineCount := state.1 + 1
  refuseIf (limits.maxHeaderLines < lineCount ∨ limits.maxHeaderLineBytes < line.length)
    (.headerLimitExceeded limits.maxHeaderLines)
  let headers ← parseHeaderLine profile state.2 line
  return (lineCount, headers)

/-- Drop one newline at the end. -/
def stripNewline (bytes : Bytes) : Bytes :=
  if bytes.getLast? = some newline then bytes.dropLast else bytes

/-- The headers of a block of lines. -/
def parseHeaderBlock (block : Bytes) : Except ObjectError (List HeaderField) :=
  if block = [] then .ok []
  else do
    let state ← (block.splitOn newline).foldlM (parseHeaderLines profile limits) (0, [])
    return state.2

def parseHeaders (body : Bytes) (profile : AcceptanceProfile) (limits : ParseLimits) :
    Except ObjectError ParsedHeaders :=
  match cutPair newline body with
  | some (before, _) => do
    let headers ← parseHeaderBlock profile limits before
    return ⟨headers, before.length + 2, true⟩
  | none =>
    if profile = .gitCompatibleImport then do
      -- no empty line was there, so the newline of the last header is not one
      let headers ← parseHeaderBlock profile limits (stripNewline body)
      return ⟨headers, body.length, false⟩
    else throw .missingHeaderMessageSeparator

/-! ### Rules for objects to be created -/

def validateNativeReference (value : Bytes) (objectIdBytes : ℕ) : Except ObjectError Unit := do
  validateTreeReferenceWidth objectIdBytes
  refuseIf (¬ (value.length = objectIdBytes * 2 ∧ value.all isAsciiHexdigit))
    .malformedObjectReference

/-- A decimal number that fits 64 bits. -/
def parseDecimalU64 (bytes : Bytes) : Except ObjectError ℕ :=
  bytes.foldlM (fun value byte =>
    if u64Max < value * 10 + (byte.toNat - 0x30) then .error .malformedSignatureDate
    else .ok (value * 10 + (byte.toNat - 0x30))) 0

/-- A name, a bracketed address, a time stamp and a zone. -/
def validateSignatureDate (value : Bytes) : Except ObjectError Unit :=
  match cut 0x3c value with
  | none => .error .malformedSignatureDate
  | some (name, afterEmail) =>
    if name.getLast? ≠ some space then .error .malformedSignatureDate
    else
      match cut 0x3e afterEmail with
      | none => .error .malformedSignatureDate
      | some (email, afterIdentity) =>
        if email = [] ∨ 0x3c ∈ email ∨ afterIdentity.head? ≠ some space then
          .error .malformedSignatureDate
        else
          let dated := afterIdentity.tail.dropWhile fun byte => byte = space || byte = 0x09
          let timestamp := dated.takeWhile isAsciiDigit
          let afterTimestamp := dated.dropWhile isAsciiDigit
          let timezone := afterTimestamp.tail
          if timestamp = [] ∨ (timestamp.head? = some 0x30 ∧ timestamp[1]? ≠ some space) ∨
              afterTimestamp.head? ≠ some space ∨ timezone.length ≠ 5 ∨
              timezone.head? ∉ [some 0x2b, some 0x2d] ∨ ¬ timezone.tail.all isAsciiDigit then
            .error .malformedSignatureDate
          else do
            let _ ← parseDecimalU64 timestamp

/-- Skip leading headers of a name, each checked and without continuations;
their number and the headers after them. -/
def takeHeaders (name : Bytes) (check : Bytes → Except ObjectError Unit) :
    List HeaderField → Except ObjectError (ℕ × List HeaderField)
  | [] => .ok (0, [])
  | header :: rest =>
    if header.name ≠ name then .ok (0, header :: rest)
    else do
      refuseIf (header.continuations ≠ []) .strictCommitHeaderOrder
      check header.value
      let (count, remaining) ← takeHeaders name check rest
      return (count + 1, remaining)

def validateStrictCommit (body : Bytes) (limits : ParseLimits) : Except ObjectError Unit := do
  refuseIf (0 ∈ body) .nulInStrictCommit
  match headers with
  | [] => throw .missingOrDuplicateCommitTree
  | tree :: remaining =>
    refuseIf (tree.name ≠ ascii "tree" ∨ tree.continuations ≠ []) .strictCommitHeaderOrder
    validateNativeReference tree.value limits.treeReferenceBytes
    let (_, remaining) ← takeHeaders (ascii "parent")
      (fun value => validateNativeReference value limits.treeReferenceBytes) remaining
    let (authorCount, remaining) ← takeHeaders (ascii "author") validateSignatureDate remaining
    refuseIf (1 < authorCount) .missingOrDuplicateCommitIdentity
    if authorCount = 0 then
      if remaining.any fun header => header.name = ascii "author" || header.name = ascii "committer"
      then throw .strictCommitHeaderOrder
      else throw .missingOrDuplicateCommitIdentity
    match remaining with
    | [] => throw .missingOrDuplicateCommitIdentity
    | committer :: rest =>
      if committer.name ≠ ascii "committer" ∨ committer.continuations ≠ [] then
        if (committer :: rest).any fun header => header.name = ascii "committer" then
          throw .strictCommitHeaderOrder
        else throw .missingOrDuplicateCommitIdentity
      validateSignatureDate committer.value
      refuseIf (rest.any fun header => header.name = ascii "encoding" &&
        (header.value = [] || header.value.any isAsciiWhitespace)) .malformedHeader

/-- The check of one header of a tag. -/
def validateTagHeader (header : HeaderField) : Except ObjectError Unit :=
  if header.name = ascii "object" then
    validateNativeReference header.value limits.treeReferenceBytes
  else if header.name = ascii "type" then
    refuseIf (header.value ∉ [ascii "blob", ascii "tree", ascii "commit", ascii "tag"])
      .invalidTagTargetType
  else if header.name = ascii "tag" then
    refuseIf (header.value = [] ∨ ¬ header.value.all isPrintable) .invalidTagName
  else if header.name = ascii "tagger" then validateSignatureDate header.value
  else .ok ()

/-- The headers every tag to be created has, in their order. -/
def requiredTagHeaders : List Bytes := [ascii "object", ascii "type", ascii "tag", ascii "tagger"]

def validateStrictTag (limits : ParseLimits) : Except ObjectError Unit := do
  refuseIf (∃ name ∈ requiredTagHeaders, headers.countP (fun header => header.name = name) ≠ 1)
    .missingOrDuplicateTagHeader
  refuseIf (headers.length < 4) .missingOrDuplicateTagHeader
  refuseIf ((headers.take 4).map HeaderField.name ≠ requiredTagHeaders ∨
    ¬ (headers.take 4).all fun header => header.continuations = []) .strictTagHeaderOrder
  headers.forM (validateTagHeader limits)

/-! ### Object bodies -/

/-- A commit or an annotated tag. -/
structure HeaderObject where
  raw : Bytes
  parsed : ParsedHeaders

/-- The bytes after the headers. -/
def HeaderObject.message (object : HeaderObject) : Bytes :=
  object.raw.drop object.parsed.messageStart

inductive ParsedObject where
  | blob (body : Bytes)
  | tree (entries : List TreeEntry)
  | commit (commit : HeaderObject)
  | tag (tag : HeaderObject)

def parseCommit (body : Bytes) (profile : AcceptanceProfile) (limits : ParseLimits) :
    Except ObjectError HeaderObject := do
  let parsed ← parseHeaders body profile limits
  if profile = .strictCreate then validateStrictCommit parsed.headers body limits
  return ⟨body, parsed⟩

def parseTag (body : Bytes) (profile : AcceptanceProfile) (limits : ParseLimits) :
    Except ObjectError HeaderObject := do
  let parsed ← parseHeaders body profile limits
  if profile = .strictCreate then validateStrictTag parsed.headers limits
  return ⟨body, parsed⟩

def parseObjectBody (objectType : ObjectType) (body : Bytes) (profile : AcceptanceProfile)
    (limits : ParseLimits) : Except ObjectError ParsedObject := do
  refuseIf (limits.maxObjectBytes < body.length) (.objectTooLarge limits.maxObjectBytes)
  match objectType with
  | .blob => return .blob body
  | .tree => return .tree (← parseTree body profile limits)
  | .commit => return .commit (← parseCommit body profile limits)
  | .tag => return .tag (← parseTag body profile limits)

/-- The bytes of one header with its continuations. -/
def HeaderField.bytes (header : HeaderField) : Bytes :=
  header.name ++ space :: header.value ++
    header.continuations.flatMap fun continuation => newline :: space :: continuation

/-- The number of bytes of one header. -/
def HeaderField.byteCount (header : HeaderField) : ℕ :=
  header.name.length + 1 + header.value.length +
    (header.continuations.map fun continuation => 2 + continuation.length).sum

/-- The number of bytes to be emitted; every header but the first follows a
newline. -/
def emittedLength (message : Bytes) (hasMessageSeparator : Bool) : ℕ :=
  message.length + (if hasMessageSeparator then 2 else 0) +
    ((headers.map HeaderField.byteCount).sum + (headers.length - 1))

def emitHeaderObjectBody (message : Bytes) (hasMessageSeparator : Bool) (limits : ParseLimits) :
    Except ObjectError Bytes := do
  refuseIf (limits.maxObjectBytes < emittedLength headers message hasMessageSeparator)
    (.objectTooLarge limits.maxObjectBytes)
  return [newline].intercalate (headers.map HeaderField.bytes) ++
    (if hasMessageSeparator then [newline, newline] else []) ++ message

def emitObjectBody (object : ParsedObject) (profile : AcceptanceProfile) (limits : ParseLimits) :
    Except ObjectError Bytes :=
  match object with
  | .blob body =>
    if limits.maxObjectBytes < body.length then .error (.objectTooLarge limits.maxObjectBytes)
    else .ok body
  | .tree entries => emitTree entries profile limits
  | .commit commit => do
    if profile = .strictCreate then validateStrictCommit commit.parsed.headers commit.raw limits
    emitHeaderObjectBody commit.parsed.headers commit.message commit.parsed.hasMessageSeparator
      limits
  | .tag tag => do
    if profile = .strictCreate then validateStrictTag tag.parsed.headers limits
    emitHeaderObjectBody tag.parsed.headers tag.message tag.parsed.hasMessageSeparator limits

end Frankengit.GitObject
