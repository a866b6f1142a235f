/-
Frankengit/Wire/Receive.lean

The receive-pack request machine (crate `fgit-wire`, module `receive`):
command lines, signed-push certificates, push options, and the hand-over to
the raw pack bytes.

After a failed call the phase is `refused`, and every later packet is met with
a refusal.  The model leaves the other fields as they were before that call:
they are not handed out again.  The machine takes packets; cutting bytes into
packets and checking the pack itself are left out.
-/
import Frankengit.Wire.Capability

namespace Frankengit.Wire

open Fallible

/-- The bytes of a packet that is not complete. -/
structure PktLineDecoder where
  limits : WireLimits
  pending : Bytes

def PktLineDecoder.new (limits : WireLimits) : Except WireError PktLineDecoder := do
  limits.validate
  return ⟨limits, []⟩

end Frankengit.Wire

namespace Frankengit.Wire.Receive

open Cutting Fallible

structure ReceiveLimits where
  wire : WireLimits := {}
  maxCommands : ℕ := 16384
  maxAtomicCommands : ℕ := 16384
  maxPushOptions : ℕ := 256
  maxPushOptionBytes : ℕ := 4096
  maxCertificateLines : ℕ := 16384
  maxCertificateBytes : ℕ := 4 * 1024 * 1024
  maxQuarantineBytes : ℕ := 64 * 1024 * 1024

inductive ReceivePhase where
  | commands | pushOptions | pack | ready | complete | refused
deriving DecidableEq

inductive ReceiveError where
  | wire (error : WireError)
  | invalidLimit (field : String)
  | unsupportedCapability (capability : Bytes)
  | capabilityNotAdvertised (capability : Bytes)
  | capabilityValueRequired (capability : Bytes)
  | capabilityValueForbidden (capability : Bytes)
  | objectFormatMismatch (expected : GitObjectFormat) (observed : Option Bytes)
  | capabilitiesNotFirstCommand
  | missingCommands
  | tooManyCommands (limit : ℕ)
  | duplicateRefCommand (refName : Bytes)
  | malformedCommand (line : Bytes)
  | deleteRefsNotNegotiated
  | unexpectedPacket (state : ReceivePhase) (packet : String)
  | unexpectedPackBytes (state : ReceivePhase)
  | terminalState (state : ReceivePhase)
  | incompleteRequest (state : ReceivePhase)
  | quarantineBytesExceeded (limit : ℕ)
  | tooManyPushOptions (limit : ℕ)
  | invalidPushOption
  | signedPushUnsupported
  | signedPushCapabilityMissing
  | malformedCertificate
  | certificateTruncated
  | certificateNonceMismatch
  | certificateTooLarge (limit : ℕ)
deriving DecidableEq

/-! ### Capabilities -/

inductive ReceiveCapability where
  | reportStatus | reportStatusV2 | sideBand64k | quiet | atomic | ofsDelta | pushOptions | agent
  | objectFormat | deleteRefs | pushCert
deriving DecidableEq

namespace ReceiveCapability

def names : List (Bytes × ReceiveCapability) :=
  [(ascii "report-status", .reportStatus), (ascii "report-status-v2", .reportStatusV2),
   (ascii "side-band-64k", .sideBand64k), (ascii "quiet", .quiet), (ascii "atomic", .atomic),
   (ascii "ofs-delta", .ofsDelta), (ascii "push-options", .pushOptions), (ascii "agent", .agent),
   (ascii "object-format", .objectFormat), (ascii "delete-refs", .deleteRefs),
   (ascii "push-cert", .pushCert)]

def parse (name : Bytes) : Option ReceiveCapability := names.lookup name

end ReceiveCapability

def formatName : GitObjectFormat → Bytes
  | .sha1 => ascii "sha1"
  | .sha256 => ascii "sha256"

def validateCapabilityValue (kind : ReceiveCapability) (capability : Capability)
    (objectFormat : GitObjectFormat) : Except ReceiveError PUnit :=
  match kind with
  | .agent =>
    refuseIf (capability.value.getD [] = []) (.capabilityValueRequired capability.name)
  | .pushCert => .ok ⟨⟩
  | .objectFormat =>
    refuseIf (capability.value ≠ some (formatName objectFormat))
      (.objectFormatMismatch objectFormat capability.value)
  | _ => refuseIf (capability.value ≠ none) (.capabilityValueForbidden capability.name)

def negotiateCapability (server : Capabilities) (objectFormat : GitObjectFormat)
    (capability : Capability) : Except ReceiveError PUnit :=
  match ReceiveCapability.parse capability.name with
  | none => .error (.unsupportedCapability capability.name)
  | some kind => do
    refuseIf (server.contains capability.name = false) (.capabilityNotAdvertised capability.name)
    validateCapabilityValue kind capability objectFormat

/-- The client's selection, each member known and advertised. -/
def negotiateCapabilities (raw : Bytes) (server : Capabilities) (limits : WireLimits)
    (objectFormat : GitObjectFormat) : Except ReceiveError (List Capability) := do
  refuseIf (raw = []) (.wire .emptyCapability)
  let parsed ← (Capabilities.parseV1 raw limits).mapError .wire
  parsed.entries.forM (negotiateCapability server objectFormat)
  return parsed.entries

inductive SignedPushProfile where
  | refuse
  | parseV1 (expectedNonce : Bytes)

def SignedPushProfile.expectedNonce : SignedPushProfile → Option Bytes
  | .refuse => none
  | .parseV1 expectedNonce => some expectedNonce

structure ReceiveContext where
  objectFormat : GitObjectFormat
  serverCapabilities : Capabilities
  limits : ReceiveLimits
  signedPush : SignedPushProfile

/-! ### Commands -/

structure ReceiveCommand where
  old : AnyGitOid
  new : AnyGitOid
  refName : Bytes
deriving DecidableEq

def isZero (oid : AnyGitOid) : Bool := oid = Crypto.GitOid.zero oid.algorithm

/-- A command with a zero new identity deletes. -/
def ReceiveCommand.deletes (command : ReceiveCommand) : Bool := isZero command.new

def parseUpdateRefName (value : Bytes) (limits : ReceiveLimits) : Except ReceiveError Bytes :=
  if limits.wire.maxRefNameBytes < value.length then
    .error (.wire (.refNameTooLarge limits.wire.maxRefNameBytes))
  else
    match RefName.validate value false with
    | .error _ => .error (.wire .invalidRefName)
    | .ok name => .ok name.bytes

/-- The command of a line, and what stands behind its NUL. -/
def parseCommandLine (line : Bytes) (format : GitObjectFormat) (limits : ReceiveLimits) :
    Except ReceiveError (ReceiveCommand × Option Bytes) := do
  let command := ((cut 0 line).map Prod.fst).getD line
  let capabilities := (cut 0 line).map Prod.snd
  refuseIf (0 ∈ command ∨ 0 ∈ capabilities.getD []) (.malformedCommand line)
  match command.splitOn space with
  | [old, new, refName] =>
    refuseIf (old = [] ∨ new = [] ∨ refName = [] ∨ command.head? = some space ∨
      command.getLast? = some space) (.malformedCommand line)
    let old ← (parseObjectId old format).mapError .wire
    let new ← (parseObjectId new format).mapError .wire
    let refName ← parseUpdateRefName refName limits
    return (⟨old, new, refName⟩, capabilities)
  | _ => throw (.malformedCommand line)

/-- The text of a command-section packet, whose line feed is optional. -/
def commandPacketText (line : Bytes) : Except ReceiveError Bytes :=
  let text := (line.dropSuffix? [newline]).getD line
  if newline ∈ text ∨ carriageReturn ∈ text then .error (.wire (.malformedRequestLine line))
  else .ok text

def validatePushOption (value : Bytes) (limits : ReceiveLimits) : Except ReceiveError PUnit :=
  refuseIf (value = [] ∨ limits.maxPushOptionBytes < value.length ∨
    value.any fun byte => byte = 0 || byte = carriageReturn || byte = newline) .invalidPushOption

/-! ### Certificates -/

structure PushCertificate where
  version : Bytes
  pusher : Bytes
  pushee : Bytes
  nonce : Bytes
  pushOptions : List Bytes
  signatureLines : List Bytes
deriving DecidableEq

inductive CertificateStage where
  | headers | commands | signature
deriving DecidableEq

structure CertificateBuilder where
  expectedNonce : Bytes
  stage : CertificateStage := .headers
  lineCount : ℕ := 0
  byteCount : ℕ := 0
  version : Option Bytes := none
  pusher : Option Bytes := none
  pushee : Option Bytes := none
  nonce : Option Bytes := none
  pushOptions : List Bytes := []
  signatureLines : List Bytes := []

inductive CertificateProgress where
  | continued
  | command (command : ReceiveCommand)
  | complete (certificate : PushCertificate)

def beginSignature : Bytes := ascii "-----BEGIN PGP SIGNATURE-----\n"
def endSignature : Bytes := ascii "-----END PGP SIGNATURE-----\n"
def pushCertEnd : Bytes := ascii "push-cert-end\n"

variable (builder : CertificateBuilder)

namespace CertificateBuilder

/-- A header that may be given once, in printable bytes. -/
def setOnce (field : Option Bytes) (value : Bytes) (context : ReceiveContext) :
    Except ReceiveError (Option Bytes) :=
  if value = [] ∨ context.limits.maxCertificateBytes < value.length ∨
      (value.any fun byte => !(0x20 ≤ byte && byte ≤ 0x7e)) ∨ field.isSome then
    .error .malformedCertificate
  else .ok (some value)

def pushOption (value : Bytes) (context : ReceiveContext) :
    Except ReceiveError CertificateBuilder :=
  if builder.pushOptions.length = context.limits.maxPushOptions then
    .error (.tooManyPushOptions context.limits.maxPushOptions)
  else .ok { builder with pushOptions := builder.pushOptions ++ [value] }

/-- One header line; each header has to follow the one before it. -/
def setHeader (line : Bytes) (context : ReceiveContext) : Except ReceiveError CertificateBuilder :=
  match line.dropPrefix? (ascii "certificate version ") with
  | some value => do
    let version ← setOnce builder.version value context
    return { builder with version }
  | none =>
  match line.dropPrefix? (ascii "pusher ") with
  | some value => do
    refuseIf (builder.version = none) .malformedCertificate
    let pusher ← setOnce builder.pusher value context
    return { builder with pusher }
  | none =>
  match line.dropPrefix? (ascii "pushee ") with
  | some value => do
    refuseIf (builder.pusher = none) .malformedCertificate
    let pushee ← setOnce builder.pushee value context
    return { builder with pushee }
  | none =>
  match line.dropPrefix? (ascii "nonce ") with
  | some value => do
    refuseIf (builder.pushee = none) .malformedCertificate
    refuseIf (value ≠ builder.expectedNonce) .certificateNonceMismatch
    let nonce ← setOnce builder.nonce value context
    return { builder with nonce }
  | none =>
  match line.dropPrefix? (ascii "push-option ") with
  | some value => do
    refuseIf (builder.nonce = none) .malformedCertificate
    validatePushOption value context.limits
    builder.pushOption value context
  | none => .error .malformedCertificate

def pushHeader (line : Bytes) (context : ReceiveContext) :
    Except ReceiveError (CertificateBuilder × CertificateProgress) :=
  if line = [newline] then
    if builder.version ≠ some (ascii "0.1") ∨ builder.pusher = none ∨ builder.pushee = none ∨
        builder.nonce = none then
      .error .malformedCertificate
    else .ok ({ builder with stage := .commands }, .continued)
  else do
    let text ← (lineWithoutLf line).mapError .wire
    let builder ← builder.setHeader text context
    return (builder, .continued)

def pushCommandOrSignature (line : Bytes) (context : ReceiveContext) :
    Except ReceiveError (CertificateBuilder × CertificateProgress) :=
  if line = beginSignature then
    .ok ({ builder with stage := .signature, signatureLines := builder.signatureLines ++ [line] },
      .continued)
  else do
    let text ← (lineWithoutLf line).mapError .wire
    let (command, capabilities) ← parseCommandLine text context.objectFormat context.limits
    refuseIf (capabilities.isSome) .capabilitiesNotFirstCommand
    return (builder, .command command)

def pushSignature (line : Bytes) : Except ReceiveError (CertificateBuilder × CertificateProgress) :=
  if line = pushCertEnd then
    if builder.signatureLines.length < 2 ∨ builder.signatureLines.getLast? ≠ some endSignature then
      .error .malformedCertificate
    else
      match builder.version, builder.pusher, builder.pushee, builder.nonce with
      | some version, some pusher, some pushee, some nonce =>
        .ok (builder, .complete ⟨version, pusher, pushee, nonce, builder.pushOptions,
          builder.signatureLines⟩)
      | _, _, _, _ => .error .malformedCertificate
  else do
    let _ ← (lineWithoutLf line).mapError .wire
    return ({ builder with signatureLines := builder.signatureLines ++ [line] }, .continued)

def pushLine (line : Bytes) (context : ReceiveContext) :
    Except ReceiveError (CertificateBuilder × CertificateProgress) :=
  let lineCount := builder.lineCount + 1
  let byteCount := builder.byteCount + line.length
  if context.limits.maxCertificateLines < lineCount then
    .error (.certificateTooLarge context.limits.maxCertificateLines)
  else if context.limits.maxCertificateBytes < byteCount then
    .error (.certificateTooLarge context.limits.maxCertificateBytes)
  else
    let builder := { builder with lineCount, byteCount }
    match builder.stage with
    | .headers => builder.pushHeader line context
    | .commands => builder.pushCommandOrSignature line context
    | .signature => builder.pushSignature line

end CertificateBuilder

/-! ### The machine -/

/-- A parsed request. -/
structure ReceiveRequest where
  commands : List ReceiveCommand
  capabilities : List Capability
  pushOptions : List Bytes
  certificate : Option PushCertificate
deriving DecidableEq

namespace ReceiveRequest

def hasCapability (request : ReceiveRequest) (name : Bytes) : Bool :=
  request.capabilities.any fun capability => capability.name = name

/-- Some command needs objects. -/
def requiresPack (request : ReceiveRequest) : Bool :=
  !request.commands.all ReceiveCommand.deletes

end ReceiveRequest

/-- What a transition tells the caller: a request is complete. -/
inductive ReceiveEvent where
  | requestReady (request : ReceiveRequest)
deriving DecidableEq

structure ReceivePack where
  context : ReceiveContext
  decoder : PktLineDecoder
  phase : ReceivePhase := .commands
  commands : List ReceiveCommand := []
  commandRefs : Finset Bytes := ∅
  clientCapabilities : List Capability := []
  pushOptions : List Bytes := []
  certificate : Option PushCertificate := none
  certificateBuilder : Option CertificateBuilder := none
  quarantine : Bytes := []

variable (machine : ReceivePack)

namespace ReceivePack

def new (context : ReceiveContext) : Except ReceiveError ReceivePack := do
  let decoder ← (PktLineDecoder.new context.limits.wire).mapError .wire
  return { context, decoder }

def hasClientCapability (name : Bytes) : Bool :=
  machine.clientCapabilities.any fun capability => capability.name = name

/-- The most commands a request may have. -/
def commandLimit : ℕ :=
  if machine.hasClientCapability (ascii "atomic") then
    min machine.context.limits.maxCommands machine.context.limits.maxAtomicCommands
  else machine.context.limits.maxCommands

def pushCommand (command : ReceiveCommand) : Except ReceiveError ReceivePack := do
  refuseIf (machine.commands.length = machine.commandLimit) (.tooManyCommands machine.commandLimit)
  refuseIf (command.refName ∈ machine.commandRefs) (.duplicateRefCommand command.refName)
  return { machine with
    commands := machine.commands ++ [command]
    commandRefs := insert command.refName machine.commandRefs }

def pushCertLine : Bytes := ascii "push-cert\x00"

def startCertificate (line : Bytes) : Except ReceiveError ReceivePack := do
  let text ← commandPacketText line
  match text.dropPrefix? pushCertLine, machine.context.signedPush.expectedNonce with
  | none, _ => throw .malformedCertificate
  | some _, none => throw .signedPushUnsupported
  | some raw, some expectedNonce =>
    let clientCapabilities ← negotiateCapabilities raw machine.context.serverCapabilities
      machine.context.limits.wire machine.context.objectFormat
    let machine := { machine with clientCapabilities }
    refuseIf (machine.hasClientCapability (ascii "push-cert") = false)
      .signedPushCapabilityMissing
    refuseIf (expectedNonce = []) (.invalidLimit "signed push expected nonce")
    return { machine with certificateBuilder := some { expectedNonce } }

def pushCertificateLine (builder : CertificateBuilder) (line : Bytes) :
    Except ReceiveError ReceivePack := do
  let (builder, progress) ← builder.pushLine line machine.context
  let machine := { machine with certificateBuilder := some builder }
  match progress with
  | .continued => return machine
  | .command command => machine.pushCommand command
  | .complete certificate =>
    return { machine with certificate := some certificate, certificateBuilder := none }

/-- The capabilities behind the NUL of a command line, which only the first
line may have. -/
def acceptCapabilities : Option Bytes → Except ReceiveError ReceivePack
  | none => .ok machine
  | some raw => do
    refuseIf (machine.commands ≠ [] ∨ machine.clientCapabilities ≠ []) .capabilitiesNotFirstCommand
    let clientCapabilities ← negotiateCapabilities raw machine.context.serverCapabilities
      machine.context.limits.wire machine.context.objectFormat
    return { machine with clientCapabilities }

/-- A command line outside a certificate. -/
def pushPlainLine (line : Bytes) : Except ReceiveError ReceivePack := do
  let text ← commandPacketText line
  let (command, capabilities) ←
    parseCommandLine text machine.context.objectFormat machine.context.limits
  let machine ← machine.acceptCapabilities capabilities
  machine.pushCommand command

def pushCommandLine (line : Bytes) : Except ReceiveError ReceivePack :=
  match machine.certificateBuilder with
  | some builder => machine.pushCertificateLine builder line
  | none =>
    if machine.commands = [] ∧ machine.clientCapabilities = [] ∧ pushCertLine <+: line then
      machine.startCertificate line
    else machine.pushPlainLine line

def validateCommandCapabilities : Except ReceiveError PUnit :=
  refuseIf ((machine.commands.any ReceiveCommand.deletes) ∧
    machine.context.serverCapabilities.contains (ascii "delete-refs") = false)
    .deleteRefsNotNegotiated

/-- The request the machine holds. -/
def request : Except ReceiveError ReceiveRequest :=
  if machine.commands = [] then .error .missingCommands
  else .ok ⟨machine.commands, machine.clientCapabilities, machine.pushOptions, machine.certificate⟩

/-- Hand the request out and go on to the pack, if it needs one. -/
def complete (request : ReceiveRequest) : ReceivePack × List ReceiveEvent :=
  ({ machine with phase := if request.requiresPack then .pack else .ready },
    [.requestReady request])

def finishCommandList : Except ReceiveError (ReceivePack × List ReceiveEvent) := do
  refuseIf (machine.certificateBuilder.isSome) .certificateTruncated
  refuseIf (machine.commands = []) .missingCommands
  machine.validateCommandCapabilities
  let request ← machine.request
  return if request.hasCapability (ascii "push-options") then
      ({ machine with phase := .pushOptions }, [])
    else machine.complete request

def pushCommandPacket (packet : Packet) : Except ReceiveError (ReceivePack × List ReceiveEvent) :=
  match packet with
  | .data line => do
    let machine ← machine.pushCommandLine line
    return (machine, [])
  | .flush => machine.finishCommandList
  | packet => .error (.unexpectedPacket machine.phase (packetName packet))

def pushPushOptionPacket (packet : Packet) :
    Except ReceiveError (ReceivePack × List ReceiveEvent) :=
  match packet with
  | .data line => do
    let option ← commandPacketText line
    validatePushOption option machine.context.limits
    refuseIf (machine.pushOptions.length = machine.context.limits.maxPushOptions)
      (.tooManyPushOptions machine.context.limits.maxPushOptions)
    return ({ machine with pushOptions := machine.pushOptions ++ [option] }, [])
  | .flush => do
    let request ← machine.request
    return machine.complete request
  | packet => .error (.unexpectedPacket machine.phase (packetName packet))

def pushPacketInner (packet : Packet) : Except ReceiveError (ReceivePack × List ReceiveEvent) :=
  match machine.phase with
  | .commands => machine.pushCommandPacket packet
  | .pushOptions => machine.pushPushOptionPacket packet
  | .pack => .error (.unexpectedPacket machine.phase (packetName packet))
  | phase => .error (.terminalState phase)

def refuse : ReceivePack :=
  { machine with quarantine := [], phase := .refused }

/-- A call: its answer and the machine after it. -/
def answer : Except ReceiveError (ReceivePack × List ReceiveEvent) →
      Except ReceiveError (List ReceiveEvent) × ReceivePack
  | .ok (machine', events) => (.ok events, machine')
  | .error e => (.error e, machine.refuse)

def pushPacket (packet : Packet) : Except ReceiveError (List ReceiveEvent) × ReceivePack :=
  machine.answer (machine.pushPacketInner packet)

/-- The request that finishing the input hands to admission. -/
def preparedRequest : Except ReceiveError ReceiveRequest :=
  if machine.decoder.pending ≠ [] then
    .error (.wire (.truncatedPacket machine.decoder.pending.length))
  else
    match machine.phase with
    | .ready | .pack => machine.request
    | .commands | .pushOptions => .error (.incompleteRequest machine.phase)
    | .complete | .refused => .error (.terminalState machine.phase)

end ReceivePack

end Frankengit.Wire.Receive
