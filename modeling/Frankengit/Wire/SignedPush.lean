/-
Frankengit/Wire/SignedPush.lean

What a signed push covers.  `Signed packets commands` says that the packets
open a certificate and that the commands are those read between its blank line
and its signature armour.

`Accepts` lists what accepting one packet can do.  From it the invariant `Inv`
follows along a run: while a certificate is open the commands are those of its
body so far, and once it is closed they are signed.  The machine goes on
reading plain command lines after the certificate has closed, so this needs
that no line then adds a command (`Covered`).
-/
import Frankengit.Wire.Receive

namespace Frankengit.Wire.Receive

open Cutting Fallible

/-! ### What is signed -/

/-- A line of a certificate spells a command. -/
def ReadsCommand (context : ReceiveContext) (line : Bytes) (command : ReceiveCommand) : Prop :=
  ∃ text, lineWithoutLf line = .ok text ∧
    parseCommandLine text context.objectFormat context.limits = .ok (command, none)

/-- A certificate is open and its blank line has not come. -/
def InHeaders (packets : List Packet) : Prop :=
  ∃ (start : Bytes) (lines : List Bytes), packets = .data start :: lines.map .data ∧
    ReceivePack.pushCertLine <+: start ∧ [newline] ∉ lines

/-- The blank line has come, and after it lines for these commands. -/
def InBody (context : ReceiveContext) (packets : List Packet) (commands : List ReceiveCommand) :
    Prop :=
  ∃ (before : List Packet) (lines : List Bytes), InHeaders before ∧
    packets = before ++ .data [newline] :: lines.map .data ∧ beginSignature ∉ lines ∧
      List.Forall₂ (ReadsCommand context) lines commands

/-- The commands are those of the certificate: its armour has come, and they
were read before it. -/
def Signed (context : ReceiveContext) (packets : List Packet) (commands : List ReceiveCommand) :
    Prop :=
  ∃ before after, InBody context before commands ∧ packets = before ++ .data beginSignature :: after

section Growth

variable {context : ReceiveContext} {packets : List Packet} {commands : List ReceiveCommand}
  {line : Bytes}

theorem InHeaders.push (h : InHeaders packets) (hline : line ≠ [newline]) :
    InHeaders (packets ++ [.data line]) := by
  obtain ⟨start, lines, rfl, hstart, hlines⟩ := h
  refine ⟨start, lines ++ [line], by simp, hstart, ?_⟩
  rw [List.mem_append, List.mem_singleton, not_or]
  exact ⟨hlines, Ne.symm hline⟩

theorem InHeaders.blank (h : InHeaders packets) :
    InBody context (packets ++ [.data [newline]]) [] :=
  ⟨packets, [], h, rfl, List.not_mem_nil, .nil⟩

theorem InBody.push {command : ReceiveCommand} (h : InBody context packets commands)
    (hline : line ≠ beginSignature) (hreads : ReadsCommand context line command) :
    InBody context (packets ++ [.data line]) (commands ++ [command]) := by
  obtain ⟨before, lines, hbefore, rfl, hlines, hall⟩ := h
  refine ⟨before, lines ++ [line], hbefore, by simp, ?_, ?_⟩
  · rw [List.mem_append, List.mem_singleton, not_or]
    exact ⟨hlines, Ne.symm hline⟩
  · exact List.rel_append hall (.cons hreads .nil)

theorem InBody.armour (h : InBody context packets commands) :
    Signed context (packets ++ [.data beginSignature]) commands :=
  ⟨packets, [], h, rfl⟩

theorem Signed.append (h : Signed context packets commands) (more : List Packet) :
    Signed context (packets ++ more) commands := by
  obtain ⟨before, after, hbefore, rfl⟩ := h
  exact ⟨before, after ++ more, hbefore, by simp⟩

end Growth

/-- What the commands are while a certificate is open. -/
def StageInv (context : ReceiveContext) (packets : List Packet) (commands : List ReceiveCommand) :
    CertificateStage → Prop
  | .headers => InHeaders packets ∧ commands = []
  | .commands => InBody context packets commands
  | .signature => Signed context packets commands

variable {commands : List ReceiveCommand}
  {context : ReceiveContext} {packets : List Packet} {stage : CertificateStage}

/-- An open certificate has packets behind it. -/
theorem StageInv.ne_nil (h : StageInv context packets commands stage) : packets ≠ [] := by
  cases stage with
  | headers =>
    obtain ⟨⟨start, lines, rfl, -⟩, -⟩ := h
    simp
  | commands =>
    obtain ⟨before, lines, -, rfl, -⟩ := h
    simp
  | signature =>
    obtain ⟨before, after, -, rfl⟩ := h
    simp

/-! ### One line of a certificate -/

/-- What one line does to an open certificate. -/
inductive Reads (context : ReceiveContext) (line : Bytes) :
    CertificateStage → CertificateStage → CertificateProgress → Prop where
  | header : line ≠ [newline] → Reads context line .headers .headers .continued
  | blank : line = [newline] → Reads context line .headers .commands .continued
  | command {command : ReceiveCommand} : line ≠ beginSignature → ReadsCommand context line command →
      Reads context line .commands .commands (.command command)
  | armour : line = beginSignature → Reads context line .commands .signature .continued
  | signature : Reads context line .signature .signature .continued
  | complete {certificate : PushCertificate} :
      Reads context line .signature .signature (.complete certificate)

/-- The commands a line adds. -/
def CertificateProgress.added : CertificateProgress → List ReceiveCommand
  | .command added => [added]
  | _ => []

variable {line : Bytes}

theorem Reads.stageInv {stage' : CertificateStage} {progress : CertificateProgress}
    (h : Reads context line stage stage' progress)
    (hinv : StageInv context packets commands stage) :
    StageInv context (packets ++ [.data line]) (commands ++ progress.added) stage' := by
  cases h with
  | header hline => exact ⟨hinv.1.push hline, by simp [hinv.2, CertificateProgress.added]⟩
  | blank hline =>
    obtain ⟨hhdrs, rfl⟩ := hinv
    rw [hline]
    exact hhdrs.blank
  | command hline hreads => exact .push hinv hline hreads
  | armour hline =>
    rw [hline]
    show Signed context _ (commands ++ [])
    rw [List.append_nil]
    exact InBody.armour hinv
  | signature | complete =>
    show Signed context _ (commands ++ [])
    rw [List.append_nil]
    exact .append hinv _

/-- A certificate is complete after its signature. -/
theorem Reads.signed {stage' : CertificateStage} {certificate : PushCertificate}
    (h : Reads context line stage stage' (.complete certificate))
    (hinv : StageInv context packets commands stage) :
    Signed context (packets ++ [.data line]) commands := by
  cases h with
  | complete => exact .append hinv _

namespace CertificateBuilder

variable {builder builder' : CertificateBuilder} {line : Bytes} {context : ReceiveContext}
  {progress : CertificateProgress}

theorem stage_of_setHeader (h : builder.setHeader line context = .ok builder') :
    builder'.stage = builder.stage := by
  unfold setHeader at h
  split at h
  · simp only [bind_eq_ok, pure_eq_ok] at h
    obtain ⟨_, -, rfl⟩ := h
    rfl
  split at h
  · simp only [bind_eq_ok, pure_eq_ok] at h
    obtain ⟨_, -, _, -, rfl⟩ := h
    rfl
  split at h
  · simp only [bind_eq_ok, pure_eq_ok] at h
    obtain ⟨_, -, _, -, rfl⟩ := h
    rfl
  split at h
  · simp only [bind_eq_ok, pure_eq_ok] at h
    obtain ⟨_, -, _, -, _, -, rfl⟩ := h
    rfl
  split at h
  · simp only [bind_eq_ok] at h
    obtain ⟨_, -, _, -, h⟩ := h
    unfold pushOption at h
    split_ifs at h
    obtain rfl := Except.ok.inj h
    rfl
  · cases h

theorem reads_of_pushHeader (hstage : builder.stage = .headers)
    (h : builder.pushHeader line context = .ok (builder', progress)) :
    Reads context line .headers builder'.stage progress := by
  unfold pushHeader at h
  split_ifs at h with hline
  · obtain ⟨rfl, rfl⟩ := Prod.mk.inj (Except.ok.inj h)
    exact .blank hline
  · simp only [bind_eq_ok, pure_eq_ok] at h
    obtain ⟨_, -, _, hset, h⟩ := h
    obtain ⟨rfl, rfl⟩ := Prod.mk.inj h
    rw [stage_of_setHeader hset, hstage]
    exact .header hline

theorem reads_of_pushCommandOrSignature (hstage : builder.stage = .commands)
    (h : builder.pushCommandOrSignature line context = .ok (builder', progress)) :
    Reads context line .commands builder'.stage progress := by
  unfold pushCommandOrSignature at h
  split_ifs at h with hline
  · obtain ⟨rfl, rfl⟩ := Prod.mk.inj (Except.ok.inj h)
    exact .armour hline
  · simp only [bind_eq_ok, pure_eq_ok, mapError_eq_ok, refuseIf_eq_ok] at h
    obtain ⟨text, htext, ⟨command, capabilities⟩, hparse, ⟨⟩, hnone, h⟩ := h
    obtain ⟨rfl, rfl⟩ := Prod.mk.inj h
    obtain rfl : capabilities = none := by simpa using hnone
    rw [hstage]
    exact .command hline ⟨text, htext, hparse⟩

theorem reads_of_pushSignature (hstage : builder.stage = .signature)
    (h : builder.pushSignature line = .ok (builder', progress)) :
    Reads context line .signature builder'.stage progress := by
  unfold pushSignature at h
  split_ifs at h with hline hbad
  · split at h
    · obtain ⟨rfl, rfl⟩ := Prod.mk.inj (Except.ok.inj h)
      rw [hstage]
      exact .complete
    · cases h
  · simp only [bind_eq_ok, pure_eq_ok] at h
    obtain ⟨_, -, h⟩ := h
    obtain ⟨rfl, rfl⟩ := Prod.mk.inj h
    rw [hstage]
    exact .signature

theorem reads_of_pushLine (h : builder.pushLine line context = .ok (builder', progress)) :
    Reads context line builder.stage builder'.stage progress := by
  unfold pushLine at h
  dsimp only at h
  split_ifs at h
  split at h
  · next hstage =>
    rw [hstage]
    refine reads_of_pushHeader ?_ h
    exact hstage
  · next hstage =>
    rw [hstage]
    refine reads_of_pushCommandOrSignature ?_ h
    exact hstage
  · next hstage =>
    rw [hstage]
    refine reads_of_pushSignature ?_ h
    exact hstage

end CertificateBuilder

namespace ReceivePack

variable {machine machine' : ReceivePack} {packet : Packet} {events : List ReceiveEvent}

/-- Whether a packet is a line that adds a command to those that the machine has. -/
def addsCommand (machine : ReceivePack) : Packet → Bool
  | .data line =>
    match commandPacketText line >>=
      (parseCommandLine · machine.context.objectFormat machine.context.limits) with
    | .ok (command, none) =>
      machine.commands.length ≠ machine.commandLimit && command.refName ∉ machine.commandRefs
    | _ => false
  | _ => false

/-- What accepting one packet can do. -/
inductive Accepts (machine : ReceivePack) : Packet → ReceivePack → List ReceiveEvent → Prop where
  | certified {line : Bytes} {builder builder' : CertificateBuilder}
      {progress : CertificateProgress} {commandRefs : Finset Bytes} :
      machine.phase = .commands → machine.certificateBuilder = some builder →
      Reads machine.context line builder.stage builder'.stage progress →
      (∀ certificate, progress ≠ .complete certificate) →
      Accepts machine (.data line)
        { machine with
          certificateBuilder := some builder'
          commands := machine.commands ++ progress.added
          commandRefs } []
  | certificate {line : Bytes} {builder : CertificateBuilder} {stage : CertificateStage}
      {certificate : PushCertificate} :
      machine.phase = .commands → machine.certificateBuilder = some builder →
      Reads machine.context line builder.stage stage (.complete certificate) →
      Accepts machine (.data line)
        { machine with certificate := some certificate, certificateBuilder := none } []
  | start {line expectedNonce : Bytes} {clientCapabilities : List Capability} :
      machine.phase = .commands → machine.certificateBuilder = none → machine.commands = [] →
      machine.clientCapabilities = [] → pushCertLine <+: line → clientCapabilities ≠ [] →
      Accepts machine (.data line)
        { machine with clientCapabilities, certificateBuilder := some { expectedNonce } } []
  | plain {line : Bytes} {command : ReceiveCommand} {clientCapabilities : List Capability} :
      machine.phase = .commands → machine.certificateBuilder = none →
      machine.addsCommand (.data line) ∨ machine.commands = [] ∧ machine.clientCapabilities = [] →
      Accepts machine (.data line)
        { machine with
          clientCapabilities
          commands := machine.commands ++ [command]
          commandRefs := insert command.refName machine.commandRefs } []
  | options : machine.phase = .commands → machine.certificateBuilder = none →
      machine.commands ≠ [] →
      Accepts machine .flush { machine with phase := .pushOptions } []
  | option {line option : Bytes} : machine.phase = .pushOptions →
      Accepts machine (.data line)
        { machine with pushOptions := machine.pushOptions ++ [option] } []
  | complete {request : ReceiveRequest} :
      (machine.phase = .commands → machine.certificateBuilder = none) →
      machine.request = .ok request →
      Accepts machine .flush (machine.complete request).1 (machine.complete request).2

theorem pushCommand_ok {command : ReceiveCommand} (h : machine.pushCommand command = .ok machine') :
    machine.commands.length ≠ machine.commandLimit ∧ command.refName ∉ machine.commandRefs ∧
      machine' = { machine with
        commands := machine.commands ++ [command]
        commandRefs := insert command.refName machine.commandRefs } := by
  simp only [pushCommand, bind_eq_ok, refuseIf_eq_ok, pure_eq_ok] at h
  obtain ⟨⟨⟩, hroom, ⟨⟩, hfresh, rfl⟩ := h
  exact ⟨hroom, hfresh, rfl⟩

theorem accepts_certificateLine {builder : CertificateBuilder} (hphase : machine.phase = .commands)
    (hbld : machine.certificateBuilder = some builder)
    (h : machine.pushCertificateLine builder line = .ok machine') :
    Accepts machine (.data line) machine' [] := by
  simp only [pushCertificateLine, bind_eq_ok] at h
  obtain ⟨⟨builder', progress⟩, hline, h⟩ := h
  have hreads := CertificateBuilder.reads_of_pushLine hline
  cases progress with
  | continued =>
    obtain rfl := pure_eq_ok.mp h
    have hadded : machine.commands ++ CertificateProgress.continued.added = machine.commands :=
      List.append_nil _
    have hstep : Accepts machine (.data line)
        { machine with
          certificateBuilder := some builder'
          commands := machine.commands ++ CertificateProgress.continued.added } [] :=
      .certified hphase hbld hreads (by simp)
    rwa [hadded] at hstep
  | command command =>
    obtain ⟨-, -, rfl⟩ := pushCommand_ok h
    exact .certified hphase hbld hreads (by simp)
  | complete certificate =>
    obtain rfl := pure_eq_ok.mp h
    exact .certificate hphase hbld hreads

theorem accepts_startCertificate (hphase : machine.phase = .commands)
    (hbld : machine.certificateBuilder = none) (hcmds : machine.commands = [])
    (hcaps : machine.clientCapabilities = []) (hline : pushCertLine <+: line)
    (h : machine.startCertificate line = .ok machine') :
    Accepts machine (.data line) machine' [] := by
  simp only [startCertificate, bind_eq_ok] at h
  obtain ⟨text, -, h⟩ := h
  split at h
  · simp at h
  · simp at h
  · simp only [bind_eq_ok, refuseIf_eq_ok, pure_eq_ok, Bool.not_eq_false] at h
    obtain ⟨clientCapabilities, -, ⟨⟩, hcert, ⟨⟩, -, rfl⟩ := h
    refine .start hphase hbld hcmds hcaps hline ?_
    rintro rfl
    simp [hasClientCapability] at hcert

theorem accepts_plainLine (hphase : machine.phase = .commands)
    (hbld : machine.certificateBuilder = none) (h : machine.pushPlainLine line = .ok machine') :
    Accepts machine (.data line) machine' [] := by
  simp only [pushPlainLine, bind_eq_ok] at h
  obtain ⟨text, htext, ⟨command, capabilities⟩, hparse, accepted, haccept, hpush⟩ := h
  obtain ⟨hroom, hfresh, rfl⟩ := pushCommand_ok hpush
  cases capabilities with
  | none =>
    obtain rfl := Except.ok.inj haccept
    refine .plain hphase hbld (.inl ?_)
    rw [addsCommand, bind_eq_ok.mpr ⟨text, htext, hparse⟩]
    simp [hroom, hfresh]
  | some raw =>
    simp only [acceptCapabilities, bind_eq_ok, refuseIf_eq_ok, pure_eq_ok, not_or, not_not]
      at haccept
    obtain ⟨⟨⟩, hfirst, clientCapabilities, -, rfl⟩ := haccept
    exact .plain hphase hbld (.inr hfirst)

variable {request : ReceiveRequest}

/-- A request has commands. -/
theorem request_ok (h : machine.request = .ok request) :
    machine.commands ≠ [] ∧ request = ⟨machine.commands, machine.clientCapabilities,
      machine.pushOptions, machine.certificate⟩ := by
  unfold ReceivePack.request at h
  split_ifs at h with hcmds
  exact ⟨hcmds, (Except.ok.inj h).symm⟩

theorem accepts_commandPacket (hphase : machine.phase = .commands)
    (h : machine.pushCommandPacket packet = .ok (machine', events)) :
    Accepts machine packet machine' events := by
  cases packet with
  | data line =>
    simp only [pushCommandPacket, bind_eq_ok, pure_eq_ok] at h
    obtain ⟨next, hline, h⟩ := h
    obtain ⟨rfl, rfl⟩ := Prod.mk.inj h
    unfold pushCommandLine at hline
    split at hline
    · next builder hbld => exact accepts_certificateLine hphase hbld hline
    · next hbld =>
      split_ifs at hline with hstart
      · exact accepts_startCertificate hphase hbld hstart.1 hstart.2.1 hstart.2.2 hline
      · exact accepts_plainLine hphase hbld hline
  | flush =>
    simp only [pushCommandPacket, finishCommandList, bind_eq_ok, refuseIf_eq_ok, pure_eq_ok] at h
    obtain ⟨_, hbld, _, hcmds, _, -, request, hreq, h⟩ := h
    have hbld : machine.certificateBuilder = none := by simpa using hbld
    split_ifs at h with hoptions
    · obtain ⟨rfl, rfl⟩ := Prod.mk.inj h
      exact .options hphase hbld hcmds
    · obtain ⟨rfl, rfl⟩ := Prod.mk.inj h
      exact .complete (fun _ => hbld) hreq
  | delimiter | responseEnd => simp [pushCommandPacket] at h

theorem accepts_pushOptionPacket (hphase : machine.phase = .pushOptions)
    (h : machine.pushPushOptionPacket packet = .ok (machine', events)) :
    Accepts machine packet machine' events := by
  cases packet with
  | data line =>
    simp only [pushPushOptionPacket, bind_eq_ok, pure_eq_ok] at h
    obtain ⟨option, -, _, -, _, -, h⟩ := h
    obtain ⟨rfl, rfl⟩ := Prod.mk.inj h
    exact .option hphase
  | flush =>
    simp only [pushPushOptionPacket, bind_eq_ok, pure_eq_ok] at h
    obtain ⟨request, hreq, h⟩ := h
    obtain ⟨rfl, rfl⟩ := Prod.mk.inj h
    exact .complete (fun h => absurd (hphase.symm.trans h) (by decide)) hreq
  | delimiter | responseEnd => simp [pushPushOptionPacket] at h

/-- Accepting a packet is one of the listed steps. -/
theorem accepts_of_pushPacketInner (h : machine.pushPacketInner packet = .ok (machine', events)) :
    Accepts machine packet machine' events := by
  unfold pushPacketInner at h
  split at h
  · next hphase => exact accepts_commandPacket hphase h
  · next hphase => exact accepts_pushOptionPacket hphase h
  · cases h
  · cases h

/-! ### The invariant -/

/-- The machine after it accepted the packets. -/
structure Inv (context : ReceiveContext) (packets : List Packet)
    (machine : ReceivePack) : Prop where
  context_eq : machine.context = context
  stage : ∀ builder ∈ machine.certificateBuilder,
    StageInv context packets machine.commands builder.stage ∧ machine.certificate = none
  signed : machine.certificate.isSome → Signed context packets machine.commands
  fresh : machine.commands = [] → machine.clientCapabilities = [] → packets = []
  closed : machine.phase ≠ .commands → machine.certificateBuilder = none ∧ machine.commands ≠ []

/-- No line adds a command once a certificate has closed. -/
def CoveredStep (machine : ReceivePack) (packet : Packet) : Prop :=
  machine.phase = .commands ∧ machine.certificate.isSome → machine.addsCommand packet = false

variable {context : ReceiveContext} {packets : List Packet}

theorem Inv.new (h : new context = .ok machine) : Inv context [] machine := by
  simp only [ReceivePack.new, bind_eq_ok, pure_eq_ok] at h
  obtain ⟨decoder, -, rfl⟩ := h
  exact ⟨rfl, by simp, by simp, fun _ _ => rfl, fun hphase => absurd rfl hphase⟩

/-- The end of a section and an option leave signed commands signed. -/
theorem Inv.keep (h : Inv context packets machine) (hcmds : machine.commands ≠ [])
    (hcontext : machine'.context = machine.context) (hbld : machine'.certificateBuilder = none)
    (hcertificate : machine'.certificate = machine.certificate)
    (hcmds' : machine'.commands = machine.commands) :
    Inv context (packets ++ [packet]) machine' where
  context_eq := hcontext.trans h.context_eq
  stage := by simp [hbld]
  signed := by
    rw [hcertificate, hcmds']
    exact fun hsome => (h.signed hsome).append _
  fresh := fun hnil => absurd (hcmds' ▸ hnil) hcmds
  closed := fun _ => ⟨hbld, hcmds' ▸ hcmds⟩

/-- Accepting a packet keeps the invariant. -/
theorem Inv.step (h : Inv context packets machine) (hcovered : CoveredStep machine packet)
    (hpush : machine.pushPacketInner packet = .ok (machine', events)) :
    Inv context (packets ++ [packet]) machine' := by
  cases accepts_of_pushPacketInner hpush with
  | certified hphase hbld hreads _ =>
    obtain ⟨hstage, hnone⟩ := h.stage _ hbld
    rw [h.context_eq] at hreads
    refine ⟨h.context_eq, ?_, by simp [hnone], fun hcmds hcaps => ?_, fun hne => absurd hphase hne⟩
    · rintro builder' ⟨⟩
      exact ⟨hreads.stageInv hstage, hnone⟩
    · have hempty := h.fresh (List.append_eq_nil_iff.mp hcmds).1 hcaps
      exact absurd hempty hstage.ne_nil
  | certificate hphase hbld hreads =>
    obtain ⟨hstage, hnone⟩ := h.stage _ hbld
    rw [h.context_eq] at hreads
    exact ⟨h.context_eq, nofun, fun _ => hreads.signed hstage,
      fun hcmds hcaps => absurd (h.fresh hcmds hcaps) hstage.ne_nil,
      fun hne => absurd hphase hne⟩
  | start hphase hbld hcmds hcaps hline hne =>
    obtain rfl := h.fresh hcmds hcaps
    refine ⟨h.context_eq, ?_, ?_, fun _ hnil => absurd hnil hne, fun hne => absurd hphase hne⟩
    · rintro builder' ⟨⟩
      have hnone : machine.certificate = none := by
        by_contra hsome
        have hsigned : StageInv context [] machine.commands .signature :=
          h.signed (Option.isSome_iff_ne_none.mpr hsome)
        exact absurd rfl hsigned.ne_nil
      exact ⟨⟨⟨_, [], rfl, hline, List.not_mem_nil⟩, hcmds⟩, hnone⟩
    · intro hsome
      exact (h.signed hsome).append _
  | plain hphase hbld hadds =>
    -- this is the step that a closed certificate must not be followed by
    have hopen : ¬ machine.certificate.isSome := by
      intro hsome
      rcases hadds with hadds | ⟨hcmds, hcaps⟩
      · exact Bool.false_ne_true ((hcovered ⟨hphase, hsome⟩).symm.trans hadds)
      · have hsigned : StageInv context packets machine.commands .signature := h.signed hsome
        exact hsigned.ne_nil (h.fresh hcmds hcaps)
    refine ⟨h.context_eq, by simp [hbld], fun hsome => absurd hsome hopen, ?_,
      fun hne => absurd hphase hne⟩
    intro hnil
    simp at hnil
  | options hphase hbld hcmds => exact h.keep hcmds rfl hbld rfl rfl
  | option hphase =>
    obtain ⟨hbld, hcmds⟩ := h.closed (by rw [hphase]; decide)
    exact h.keep hcmds rfl hbld rfl rfl
  | complete hbld hreq =>
    have hnone : machine.certificateBuilder = none := by
      by_cases hphase : machine.phase = .commands
      · exact hbld hphase
      · exact (h.closed hphase).1
    exact h.keep (request_ok hreq).1 rfl hnone rfl rfl

/-! ### Runs -/

/-- Push packets one after the other: what the caller is told, and the machine
at the end. -/
def run : ReceivePack → List Packet → List ReceiveEvent × ReceivePack
  | machine, [] => ([], machine)
  | machine, packet :: rest =>
    let (result, next) := machine.pushPacket packet
    let (events, last) := run next rest
    (result.toOption.getD [] ++ events, last)

/-- Every step of the run is covered. -/
def Covered : ReceivePack → List Packet → Prop
  | _, [] => True
  | machine, packet :: rest =>
    CoveredStep machine packet ∧ Covered (machine.pushPacket packet).2 rest

instance decidableCovered : ∀ machine packets, Decidable (Covered machine packets)
  | _, [] => inferInstanceAs (Decidable True)
  | machine, packet :: rest =>
    have := decidableCovered (machine.pushPacket packet).2 rest
    inferInstanceAs (Decidable ((_ ∧ _ → _) ∧ Covered (machine.pushPacket packet).2 rest))

/-- The request of the machine is signed if it has a certificate. -/
theorem Inv.request_signed (h : Inv context packets machine)
    (hreq : machine.request = .ok request) (hsome : request.certificate.isSome) :
    Signed context packets request.commands := by
  obtain ⟨-, rfl⟩ := request_ok hreq
  exact h.signed hsome

/-- What is announced is the request of the machine. -/
theorem request_of_event (hpush : machine.pushPacketInner packet = .ok (machine', events))
    (hevent : .requestReady request ∈ events) : machine'.request = .ok request := by
  cases accepts_of_pushPacketInner hpush with
  | complete hbld hreq =>
    obtain rfl : request = _ := by simpa [complete] using hevent
    exact hreq
  | certified | certificate | start | plain | options | option => simp at hevent

/-- A refused machine tells nothing. -/
theorem run_refused (hphase : machine.phase = .refused) :
    (run machine packets).1 = [] ∧ (run machine packets).2.phase = .refused := by
  induction packets generalizing machine with
  | nil => exact ⟨rfl, hphase⟩
  | cons packet rest ih =>
    have hpush : machine.pushPacket packet
        = (.error (.terminalState .refused), machine.refuse) := by
      simp only [pushPacket, pushPacketInner, hphase, answer]
    simp only [run, hpush]
    exact ih rfl

/-- Along a covered run the commands of a certificate are signed. -/
theorem run_signed {before : List Packet} (h : Inv context before machine)
    (hcovered : Covered machine packets) :
    (∀ request, .requestReady request ∈ (run machine packets).1 → request.certificate.isSome →
        Signed context (before ++ packets) request.commands) ∧
      ((run machine packets).2.phase = .refused ∨
        Inv context (before ++ packets) (run machine packets).2) := by
  induction packets generalizing machine before with
  | nil =>
    rw [List.append_nil]
    exact ⟨nofun, .inr h⟩
  | cons packet rest ih =>
    cases hpush : machine.pushPacketInner packet with
    | error e =>
      have hrefused : (run machine.refuse rest).1 = [] ∧
          (run machine.refuse rest).2.phase = .refused := run_refused rfl
      have hrun : run machine (packet :: rest) = run machine.refuse rest := by
        simp [run, pushPacket, hpush, answer, Except.toOption]
      rw [hrun, hrefused.1]
      exact ⟨nofun, .inl hrefused.2⟩
    | ok result =>
      obtain ⟨next, events⟩ := result
      have hstep := h.step hcovered.1 hpush
      have hrun : run machine (packet :: rest)
          = (events ++ (run next rest).1, (run next rest).2) := by
        simp [run, pushPacket, hpush, answer, Except.toOption]
      have hrest : Covered next rest := by
        simpa [pushPacket, hpush, answer] using hcovered.2
      have hih := ih hstep hrest
      rw [List.append_assoc, List.singleton_append] at hih
      rw [hrun]
      refine ⟨fun request hmem hsome => ?_, hih.2⟩
      rcases List.mem_append.mp hmem with hmem | hmem
      · have hsigned := hstep.request_signed (request_of_event hpush hmem) hsome
        rw [List.append_cons]
        exact hsigned.append rest
      · exact hih.1 request hmem hsome

/-- What finishing the input hands out is the request of the machine. -/
theorem preparedRequest_ok (h : machine.preparedRequest = .ok request) :
    machine.phase ≠ .refused ∧ machine.request = .ok request := by
  unfold preparedRequest at h
  split_ifs at h
  split at h
  · next hphase => exact ⟨by simp [hphase], h⟩
  · next hphase => exact ⟨by simp [hphase], h⟩
  all_goals cases h

/-- **A signed push is covered by its certificate**, if no line adds a command
after the certificate has closed: the commands of a completed
request with a certificate are those between the blank line of the certificate
and its signature. -/
theorem commands_signed (hnew : ReceivePack.new context = .ok machine) (packets : List Packet)
    (hcovered : Covered machine packets) {request : ReceiveRequest} {certificate : PushCertificate}
    (hdone : .requestReady request ∈ (run machine packets).1 ∨
      (run machine packets).2.preparedRequest = .ok request)
    (hcertificate : request.certificate = some certificate) :
    Signed context packets request.commands := by
  obtain ⟨hevents, hlast⟩ := run_signed (.new hnew) hcovered
  have hsome : request.certificate.isSome := by rw [hcertificate]; rfl
  rcases hdone with hevent | hprep
  · exact hevents request hevent hsome
  · obtain ⟨hphase, hreq⟩ := preparedRequest_ok hprep
    rcases hlast with hrefused | hinv
    · exact absurd hrefused hphase
    · exact hinv.request_signed hreq hsome

/-! ### A command after the certificate -/

/-- A server that takes certificates with the nonce `n`. -/
def certificateContext : ReceiveContext where
  objectFormat := .sha1
  serverCapabilities := ⟨[⟨ascii "push-cert", some (ascii "n")⟩], by simp⟩
  limits := {}
  signedPush := .parseV1 (ascii "n")

/-- A command that creates a branch. -/
def createBranch (branch : Bytes) : ReceiveCommand :=
  ⟨.zero .sha1, ⟨.sha1, List.replicate 20 0x11, rfl⟩, ascii "refs/heads/" ++ branch⟩

/-- Its line. -/
def createLine (branch : Bytes) : Bytes :=
  (createBranch branch).old.toHex ++ [space] ++ (createBranch branch).new.toHex ++ [space]
    ++ (createBranch branch).refName

/-- A certificate for the branch `a`. -/
def certificatePackets : List Packet :=
  [.data (pushCertLine ++ ascii "push-cert"), .data (ascii "certificate version 0.1\n"),
   .data (ascii "pusher p\n"), .data (ascii "pushee r\n"), .data (ascii "nonce n\n"),
   .data [newline], .data (createLine (ascii "a") ++ [newline]), .data beginSignature,
   .data endSignature, .data pushCertEnd]

/-- What is read of it. -/
def certificateRead : PushCertificate :=
  ⟨ascii "0.1", ascii "p", ascii "r", ascii "n", [], [beginSignature, endSignature]⟩

def certificateMachine : ReceivePack := { context := certificateContext, decoder := ⟨{}, []⟩ }

theorem commands_signed_branch :
    .requestReady
      ⟨[createBranch (ascii "a")], [⟨ascii "push-cert", none⟩], [], some certificateRead⟩
        ∈ (run certificateMachine (certificatePackets ++ [.flush])).1 ∧
      Signed certificateContext (certificatePackets ++ [.flush]) [createBranch (ascii "a")] := by
  have hevent : .requestReady ⟨[createBranch (ascii "a")], [⟨ascii "push-cert", none⟩], [],
      some certificateRead⟩ ∈ (run certificateMachine (certificatePackets ++ [.flush])).1 := by
    decide +kernel
  exact ⟨hevent, @commands_signed certificateMachine certificateContext rfl _ (by decide +kernel)
    _ _ (.inl hevent) rfl⟩

/-- A plain line after the certificate: the branch `b` comes with a
certificate that does not name it. -/
theorem unsigned_command_after_certificate :
    .requestReady
      ⟨[createBranch (ascii "a"), createBranch (ascii "b")], [⟨ascii "push-cert", none⟩],
        [], some certificateRead⟩
      ∈ (run certificateMachine
        (certificatePackets ++ [.data (createLine (ascii "b")), .flush])).1 ∧
    ¬ Signed certificateContext (certificatePackets ++ [.data (createLine (ascii "b")), .flush])
      [createBranch (ascii "a"), createBranch (ascii "b")] := by
  refine ⟨by decide +kernel, ?_⟩
  rintro ⟨before, after, ⟨front, lines, -, hbefore, -, hall⟩, hpackets⟩
  -- the armour and the blank line occur once, so the body is the one line between them
  have harmour := cut_of_count_eq_one hpackets (by decide +kernel)
  have hcut : cut (.data beginSignature)
      (certificatePackets ++ [.data (createLine (ascii "b")), .flush])
      = some (certificatePackets.take 7,
          [.data endSignature, .data pushCertEnd, .data (createLine (ascii "b")), .flush]) := by
    decide +kernel
  rw [hcut] at harmour
  obtain ⟨rfl, -⟩ := Prod.mk.inj (Option.some.inj harmour)
  have hblank := cut_of_count_eq_one hbefore (by decide +kernel)
  have hcut : cut (.data [newline]) (certificatePackets.take 7)
      = some (certificatePackets.take 5, [.data (createLine (ascii "a") ++ [newline])]) := by
    decide +kernel
  obtain ⟨-, hlines⟩ := Prod.mk.inj (Option.some.inj hblank)
  have hone := congrArg List.length hlines
  have htwo := hall.length_eq
  rw [List.length_map] at hone
  rw [← hone] at htwo
  cases htwo

end ReceivePack

end Frankengit.Wire.Receive
