import NDNPaxos.WaitingQueue
import NDNPaxos.ClusterMoves
import NDNPaxos.Library.Ledger
import Mathlib.Tactic

/-!
# Forwarded values

A node that is not the master sends a value of its own in a COMMIT, the master
echoes the COMMIT and commits the value, and the echo is the reply.  Request
and echo are the same message, and the receiver tells them apart by whether it
is the master itself.  As long as every request reaches a master and every echo
a node that is none, the requests, the echoes and the replies balance.
-/

namespace NDNPaxos

/-! ## What logs and packets say about forwarded values -/

def forwards (log : List Output) (value : PropValue) : ℕ := log.count (.note (.forward value))

def requests (log : List Output) (value : PropValue) : ℕ := log.count (.note (.request value))

def replies (log : List Output) (value : PropValue) : ℕ := log.count (.note (.reply value))

def commits (log : List Output) (value : PropValue) : ℕ :=
  ((handed log).map Prod.fst).count value

def Packet.forwarded? (packet : Packet) : Option (ℕ × PropValue) :=
  match packet.msg with
  | .commit msg => some (msg.msgHeader.nodeId, msg.propValue)
  | _ => none

/-- A COMMIT comes from a node, and an echo goes back to it. -/
def Packet.Addressed (size : ℕ) (packet : Packet) : Prop :=
  ∀ sender value, packet.forwarded? = some (sender, value) →
    sender < size ∧ (packet.route ≠ .interest → packet.dst = sender)

def copyPrice (request : Bool) (value : PropValue) (packet : Packet) : ℤ :=
  if decide (packet.route = .interest) = request ∧
      packet.forwarded?.map Prod.snd = some value then 1 else 0

/-- The price of a COMMIT of the value from the sender, be it the request or its echo. -/
def messagePrice (sender : ℕ) (value : PropValue) (packet : Packet) : ℤ :=
  if packet.forwarded? = some (sender, value) then 1 else 0

theorem forwarded?_eq_none {packet : Packet} (hkind : packet.msg.kind ≠ .forwarding) :
    packet.forwarded? = none := by
  unfold Packet.forwarded?
  split
  next msg hmsg => simp [hmsg, Message.kind] at hkind
  next => rfl

theorem commits_append (log outs : List Output) (value : PropValue) :
    commits (log ++ outs) value = commits log value + commits outs value := by
  rw [commits, handed_append, List.map_append, List.count_append]
  rfl

theorem commits_cons {out : Output} (hout : handed? out = none) (outs : List Output)
    (value : PropValue) : commits (out :: outs) value = commits outs value := by
  rw [commits, handed, List.filterMap_cons_none hout]
  rfl

theorem commits_eq_zero {outs : List Output} (value : PropValue)
    (hkinds : ∀ out ∈ outs, out.kind ≠ .handed) : commits outs value = 0 := by
  rw [commits, handed_eq_nil hkinds]
  rfl

theorem commits_commit (value value' : PropValue) (name : Name) {sent : List Output}
    (hsent : ∀ out ∈ sent, out.kind = .opened ∨ out.kind = .proposer) :
    commits (.note (.commit value' name) :: sent) value = if value' = value then 1 else 0 := by
  have hnone : commits sent value = 0 := by
    apply commits_eq_zero
    intro out hmem
    rcases hsent out hmem with hkind | hkind <;> simp [hkind]
  rw [← List.singleton_append, commits_append, hnone]
  by_cases heq : value' = value <;> simp [commits, handed, handed?, heq]

theorem not_forwarding_of_opening {sent : List Output}
    (hsent : ∀ out ∈ sent, out.kind = .opened ∨ out.kind = .proposer) :
    ∀ out ∈ sent, out.kind ≠ .forwarding := by
  intro out hmem
  rcases hsent out hmem with hkind | hkind <;> simp [hkind]

theorem count_eq_zero_of_kind {outs : List Output} {event : Event}
    (hkinds : ∀ out ∈ outs, out.kind ≠ event.kind) : outs.count (.note event) = 0 :=
  List.count_eq_zero_of_not_mem fun hmem => hkinds _ hmem rfl

/-- A price that only a COMMIT has. -/
theorem worth_of_kinds {price : Packet → ℤ} {outs : List Output}
    (hprice : ∀ packet, packet.forwarded? = none → price packet = 0)
    (hkinds : ∀ out ∈ outs, out.kind ≠ .forwarding) :
    Ledger.worth price (packetsOf outs) = 0 := by
  apply Ledger.worth_eq_zero
  intro packet hmem
  exact hprice packet (forwarded?_eq_none (hkinds _ (mem_packetsOf.mp hmem)))

theorem copyPrice_eq_zero (request : Bool) (value : PropValue) (packet : Packet)
    (hnone : packet.forwarded? = none) : copyPrice request value packet = 0 := by
  simp [copyPrice, hnone]

theorem copyPrice_nonneg (request : Bool) (value : PropValue) (packet : Packet) :
    0 ≤ copyPrice request value packet := by
  unfold copyPrice
  split <;> simp

theorem messagePrice_nonneg (sender : ℕ) (value : PropValue) (packet : Packet) :
    0 ≤ messagePrice sender value packet := by
  unfold messagePrice
  split <;> simp

theorem messagePrice_eq_zero (sender : ℕ) (value : PropValue) (packet : Packet)
    (hnone : packet.forwarded? = none) : messagePrice sender value packet = 0 := by
  simp [messagePrice, hnone]

@[simp] theorem packetsOf_append (outs outs' : List Output) :
    packetsOf (outs ++ outs') = packetsOf outs ++ packetsOf outs' := List.filterMap_append

@[simp] theorem packetsOf_nil : packetsOf [] = [] := rfl

@[simp] theorem packetsOf_send (packet : Packet) (outs : List Output) :
    packetsOf (.send packet :: outs) = packet :: packetsOf outs := rfl

@[simp] theorem packetsOf_note (event : Event) (outs : List Output) :
    packetsOf (.note event :: outs) = packetsOf outs := rfl

/-- Only the four parts of the protocol send anything. -/
theorem packetsOf_eq_nil {outs : List Output}
    (hkinds : ∀ out ∈ outs, out.kind = .client ∨ out.kind = .handed) : packetsOf outs = [] := by
  rw [List.eq_nil_iff_forall_not_mem]
  intro packet hmem
  have hkind := hkinds _ (mem_packetsOf.mp hmem)
  obtain ⟨route, dst, msg⟩ := packet
  cases msg <;> simp [Output.kind, Message.kind] at hkind

/-! ## Audited accounts -/

structure Captain.Numbered (size i : ℕ) (captain : Captain) : Prop where
  wellKept : captain.WellKept
  whoami : captain.whoami = i
  lt : i < size
  valueId : toNodeId captain.valueId = i

/-- The request reaches a master, or the echo a node that is none. -/
def Captain.Routed (captain : Captain) (packet : Packet) : Prop :=
  captain.view.ifMaster = true ↔ packet.route = .interest

/-- An account of every node that pays for the packets it sends: out of its
own moves, and out of the price of a COMMIT that it handles. -/
structure Audit (size : ℕ) (calls : Call → Prop)
    (account : ℕ → Captain → List Output → ℤ) (price : Packet → ℤ) : Prop where
  nonneg : ∀ packet, 0 ≤ price packet
  move : ∀ i setting captain log outs final, Captain.Numbered size i captain →
    (∀ call, setting.calls call → calls call) → (∀ msg, ¬ setting.received (.commit msg)) →
    Captain.Move setting captain outs final →
      account i final (log ++ outs) + Ledger.worth price (packetsOf outs) ≤ account i captain log
  commit : ∀ packet msg captain log outs final, Captain.Numbered size packet.dst captain →
    packet.msg = .commit msg → packet.Addressed size → captain.Routed packet →
    captain.handleCommit msg = some (final, outs) →
      account packet.dst final (log ++ outs) + Ledger.worth price (packetsOf outs) ≤
        account packet.dst captain log + price packet

namespace Captain

variable {captain final : Captain} {setting : Setting} {outs : List Output} {size i : ℕ}

/-! ## Moves and COMMIT messages -/

theorem toNodeId_next (valueId : ℕ) : toNodeId (valueId + 2 ^ 16) = toNodeId valueId :=
  Nat.add_mod_right valueId (2 ^ 16)

theorem CommitSource.valueId_cases {value : PropValue} {valueId : ℕ}
    (hsource : CommitSource setting captain value valueId) :
    valueId = captain.valueId ∨ valueId = captain.valueId + 2 ^ 16 := by
  cases hsource with
  | called hcall => exact .inl rfl
  | changed hcall => exact .inl rfl
  | numbered hcall hid => exact .inr rfl
  | requested hreceived hvalue => exact .inl rfl

def SameForwarding (before after : Captain) : Prop :=
  after.valueId = before.valueId ∧ after.commitOk = before.commitOk

theorem openSlot_sameForwarding (captain : Captain) (value : PropValue) (name : Name)
    (tryTime : ℕ) (skipPhaseI : Bool) :
    SameForwarding captain (captain.openSlot value name tryTime skipPhaseI).1 := by
  rw [openSlot_eq]
  exact ⟨rfl, rfl⟩

theorem popFront_sameForwarding {popped : Captain} {front : PropValue} {frontName : Name}
    (hpop : captain.popFront = some (front, frontName, popped)) :
    SameForwarding captain popped := by
  rw [popFront_frame hpop]
  exact ⟨rfl, rfl⟩

theorem SameForwarding.trans {first second third : Captain} (h₁ : SameForwarding first second)
    (h₂ : SameForwarding second third) : SameForwarding first third :=
  ⟨h₂.1.trans h₁.1, h₂.2.trans h₁.2⟩

theorem CommitStep.sameForwarding {value : PropValue} {dataName ref : Name}
    (hstep : CommitStep captain value dataName final outs ref) :
    SameForwarding captain final := by
  cases hstep with
  | dropped hfull => exact ⟨rfl, rfl⟩
  | waits hfull => exact ⟨rfl, rfl⟩
  | opens hroom hempty => exact openSlot_sameForwarding _ _ _ _ _
  | passes hroom hwaiting hpop =>
      have hpushed : SameForwarding captain (captain.pushBack value dataName) := ⟨rfl, rfl⟩
      exact (hpushed.trans (popFront_sameForwarding hpop)).trans (openSlot_sameForwarding _ _ _ _ _)

theorem FinishStep.sameForwarding {slot : ℕ} {info : ProposerInfo} {chosen : PropValue}
    {dataName : Name} (hstep : FinishStep captain slot info chosen dataName final outs) :
    SameForwarding captain final := by
  have hclosed : SameForwarding captain (captain.withoutProposer slot) := ⟨rfl, rfl⟩
  cases hstep with
  | idle hown hempty => exact hclosed
  | next hown hpop =>
      exact (hclosed.trans (popFront_sameForwarding hpop)).trans (openSlot_sameForwarding _ _ _ _ _)
  | recommit hforeign => exact hclosed.trans (openSlot_sameForwarding _ _ _ _ _)

/-- A node numbers at most one value in a move. -/
theorem Move.valueId_cases (hshape : LogShape captain)
    (hmove : Move setting captain outs final) :
    final.valueId = captain.valueId ∨ final.valueId = captain.valueId + 2 ^ 16 := by
  cases hmove with
  | base hmove =>
      cases hmove with
      | forwarding hmove =>
          cases hmove with
          | crash hcall => exact .inl rfl
          | forward hcall hmaster hid hsend => exact .inr rfl
          | echo hreceived hmaster => exact .inl rfl
          | reply hreceived hmaster => exact .inl rfl
      | acceptor hmove => exact .inl (by rw [hmove.spec.1])
      | proposer hmove => exact .inl (by rw [hmove.spec.1])
      | learner hmove => exact .inl (by rw [(hmove.spec hshape).1])
  | commit hsource hstep => exact hsource.valueId_cases
  | command hcall hmaster hid => exact .inr rfl
  | finish hinfo hstatus hvalue hstored hretires hstep => exact .inl hstep.sameForwarding.1

theorem Numbered.move (hnumbered : captain.Numbered size i)
    (hmove : Move setting captain outs final) : final.Numbered size i where
  wellKept := hmove.wellKept hnumbered.wellKept
  whoami := (hmove.sameNode hnumbered.wellKept).nodeId.trans hnumbered.whoami
  lt := hnumbered.lt
  valueId := by
    rcases hmove.valueId_cases hnumbered.wellKept.shape with hsame | hnext
    · rw [hsame]
      exact hnumbered.valueId
    · rw [hnext, toNodeId_next]
      exact hnumbered.valueId

theorem handleCommit_cases {msg : MsgCommit}
    (hhandle : captain.handleCommit msg = some (final, outs)) :
    (captain.view.ifMaster = true ∧ final.valueId = captain.valueId ∧ ∃ name sent,
      outs = .send { route := .data, dst := toNodeId msg.msgHeader.nodeId, msg := .commit msg } ::
        .note (.request msg.propValue) :: .note (.commit msg.propValue name) :: sent ∧
      ∀ out ∈ sent, out.kind = .opened ∨ out.kind = .proposer) ∨
    (captain.view.ifMaster = false ∧ final.valueId = captain.valueId ∧
      outs = [.note (.reply msg.propValue)]) := by
  simp only [handleCommit] at hhandle
  cases hmaster : captain.view.ifMaster with
  | true =>
      simp only [hmaster, if_true, Option.bind_eq_bind, Option.bind_eq_some_iff, Prod.exists,
        pure, Option.some.injEq, Prod.mk.injEq] at hhandle
      rcases hhandle with ⟨next, outs', hcommit, rfl, rfl⟩
      rcases commitRef_step hcommit with ⟨last, ref, hstep, rfl⟩
      rcases hstep.kinds with ⟨sent, rfl, hsent⟩
      exact .inl ⟨rfl, hstep.sameForwarding.1, _, sent, rfl, hsent⟩
  | false =>
      simp only [hmaster, Bool.false_eq_true, if_false, Option.some.injEq,
        Prod.mk.injEq] at hhandle
      rcases hhandle with ⟨rfl, rfl⟩
      exact .inr ⟨rfl, rfl, rfl⟩

/-- Where no COMMIT arrives, a move forwards a new value or puts out nothing of
this kind. -/
theorem Move.forward_cases (hshape : LogShape captain)
    (hquiet : ∀ msg, ¬ setting.received (.commit msg))
    (hmove : Move setting captain outs final) :
    (∃ value dst, value.id = captain.valueId + 2 ^ 16 ∧
      final.valueId = captain.valueId + 2 ^ 16 ∧
      outs = [.note (.forward value),
        .send {
          route := .interest
          dst
          msg := .commit {
            msgHeader := { nodeId := captain.whoami, slotId := 0 }
            propValue := value } }]) ∨
      ∀ out ∈ outs, out.kind ≠ .forwarding := by
  rcases hmove.forwarding_cases hshape with hforward | hkinds
  · cases hforward with
    | crash hcall => exact .inr (by simp)
    | forward hcall hmaster hid hsend =>
        rw [sendInterest_eq_some hsend]
        exact .inl ⟨_, _, hid, rfl, rfl⟩
    | echo hreceived hmaster => exact absurd hreceived (hquiet _)
    | reply hreceived hmaster => exact absurd hreceived (hquiet _)
  · exact .inr hkinds

/-- A move commits a value that the application did not hand over only by
numbering it. -/
theorem Move.commits_cases (hshape : LogShape captain) (value : PropValue)
    (hcalls : ∀ call, setting.calls call →
      (∀ name, call ≠ .commit value name) ∧ call ≠ .masterChange value)
    (hquiet : ∀ msg, ¬ setting.received (.commit msg))
    (hmove : Move setting captain outs final) :
    commits outs value = 0 ∨
      value.id = captain.valueId + 2 ^ 16 ∧ final.valueId = captain.valueId + 2 ^ 16 ∧
        commits outs value = 1 := by
  cases hmove with
  | base hmove => exact .inl (commits_eq_zero value fun out hmem => (hmove.kinds hshape hmem).1)
  | @commit value' name valueId next ref outs hsource hstep =>
      rcases hstep.kinds with ⟨sent, rfl, hsent⟩
      rw [commits_commit value value' _ hsent]
      by_cases heq : value' = value
      · subst heq
        cases hsource with
        | called hcall => exact absurd rfl ((hcalls _ hcall).1 _)
        | changed hcall => exact absurd rfl (hcalls _ hcall).2
        | numbered hcall hid => exact .inr ⟨hid, rfl, if_pos rfl⟩
        | requested hreceived hvalue => exact absurd hreceived (hquiet _)
      · exact .inl (if_neg heq)
  | command hcall hmaster hid => exact .inl rfl
  | finish hinfo hstatus hvalue hstored hretires hstep =>
      left
      apply commits_eq_zero
      intro out hmem
      rcases List.mem_append.mp hmem with hannounced | hfinish
      · simp [kind_of_mem_announce hannounced]
      · rcases hstep.kinds with ⟨sent, rfl, hsent⟩
        rcases List.mem_cons.mp hfinish with rfl | hopened
        · simp [Output.kind, Event.kind]
        · rcases hsent out hopened with hkind | hkind <;> simp [hkind]

end Captain

section Audits

variable {size : ℕ} (value : PropValue)

/-- Every request that is handled was paid for by a forwarded value. -/
theorem requests_audited :
    Audit size (fun _ => True) (fun _ _ log => (requests log value : ℤ) - forwards log value)
      (copyPrice true value) where
  nonneg := copyPrice_nonneg true value
  move := by
    intro i setting captain log outs final hnumbered _ hquiet hmove
    rcases hmove.forward_cases hnumbered.wellKept.shape hquiet with
      ⟨forwarded, dst, _, _, rfl⟩ | hkinds
    · by_cases heq : forwarded = value
      · simp [requests, forwards, copyPrice, Packet.forwarded?, heq]
      · simp [requests, forwards, copyPrice, Packet.forwarded?, heq]
    · rw [worth_of_kinds (copyPrice_eq_zero true value) hkinds]
      have hrequests : outs.count (.note (.request value)) = 0 := count_eq_zero_of_kind hkinds
      have hforwards : outs.count (.note (.forward value)) = 0 := count_eq_zero_of_kind hkinds
      simp [requests, forwards, hrequests, hforwards]
  commit := by
    intro packet msg captain log outs final _ hmsg _ hrouted hhandle
    rcases Captain.handleCommit_cases hhandle with
      ⟨hmaster, _, name, sent, rfl, hsent⟩ | ⟨_, _, rfl⟩
    · have hkinds := not_forwarding_of_opening hsent
      have hrequests : sent.count (.note (.request value)) = 0 := count_eq_zero_of_kind hkinds
      have hforwards : sent.count (.note (.forward value)) = 0 := count_eq_zero_of_kind hkinds
      have hworth := worth_of_kinds (copyPrice_eq_zero true value) hkinds
      have hroute := hrouted.mp hmaster
      by_cases heq : msg.propValue = value
      · simp [requests, forwards, copyPrice, Packet.forwarded?, heq, hrequests, hforwards,
          hworth, hroute, hmsg]
        omega
      · simp [requests, forwards, copyPrice, Packet.forwarded?, heq, hrequests, hforwards,
          hworth, hroute, hmsg]
    · simpa [requests, forwards] using copyPrice_nonneg true value packet

/-- Every reply that is handled was paid for by a request. -/
theorem echoes_audited :
    Audit size (fun _ => True) (fun _ _ log => (replies log value : ℤ) - requests log value)
      (copyPrice false value) where
  nonneg := copyPrice_nonneg false value
  move := by
    intro i setting captain log outs final hnumbered _ hquiet hmove
    rcases hmove.forward_cases hnumbered.wellKept.shape hquiet with
      ⟨forwarded, dst, _, _, rfl⟩ | hkinds
    · simp [replies, requests, copyPrice]
    · rw [worth_of_kinds (copyPrice_eq_zero false value) hkinds]
      have hreplies : outs.count (.note (.reply value)) = 0 := count_eq_zero_of_kind hkinds
      have hrequests : outs.count (.note (.request value)) = 0 := count_eq_zero_of_kind hkinds
      simp [replies, requests, hreplies, hrequests]
  commit := by
    intro packet msg captain log outs final _ hmsg _ hrouted hhandle
    rcases Captain.handleCommit_cases hhandle with
      ⟨_, _, name, sent, rfl, hsent⟩ | ⟨hmaster, _, rfl⟩
    · have hkinds := not_forwarding_of_opening hsent
      have hreplies : sent.count (.note (.reply value)) = 0 := count_eq_zero_of_kind hkinds
      have hrequests : sent.count (.note (.request value)) = 0 := count_eq_zero_of_kind hkinds
      have hworth := worth_of_kinds (copyPrice_eq_zero false value) hkinds
      have hprice := copyPrice_nonneg false value packet
      by_cases heq : msg.propValue = value
      · simp [replies, requests, copyPrice, Packet.forwarded?, heq, hreplies, hrequests,
          hworth] at hprice ⊢
        omega
      · simpa [replies, requests, copyPrice, Packet.forwarded?, heq, hreplies, hrequests,
          hworth] using hprice
    · have hroute : packet.route ≠ .interest := by
        intro hroute
        simp [hrouted.mpr hroute] at hmaster
      by_cases heq : msg.propValue = value
      · simp [replies, requests, copyPrice, Packet.forwarded?, heq, hroute, hmsg]
        omega
      · simp [replies, requests, copyPrice, Packet.forwarded?, heq, hroute, hmsg]

/-- Every reply that a node handles was paid for by a value it forwarded. -/
theorem replies_audited (sender : ℕ) :
    Audit size (fun _ => True)
      (fun i _ log => if i = sender then (replies log value : ℤ) - forwards log value else 0)
      (messagePrice sender value) where
  nonneg := messagePrice_nonneg sender value
  move := by
    intro i setting captain log outs final hnumbered _ hquiet hmove
    rcases hmove.forward_cases hnumbered.wellKept.shape hquiet with
      ⟨forwarded, dst, _, _, rfl⟩ | hkinds
    · have hwhoami := hnumbered.whoami
      by_cases hself : i = sender
      · by_cases heq : forwarded = value
        · simp [replies, forwards, messagePrice, Packet.forwarded?, heq, hwhoami, hself]
        · simp [replies, forwards, messagePrice, Packet.forwarded?, heq, hwhoami, hself]
      · simp [messagePrice, Packet.forwarded?, hwhoami, hself]
    · rw [worth_of_kinds (messagePrice_eq_zero sender value) hkinds]
      have hreplies : outs.count (.note (.reply value)) = 0 := count_eq_zero_of_kind hkinds
      have hforwards : outs.count (.note (.forward value)) = 0 := count_eq_zero_of_kind hkinds
      simp [replies, forwards, hreplies, hforwards]
  commit := by
    intro packet msg captain log outs final hnumbered hmsg haddressed hrouted hhandle
    have hforwarded : packet.forwarded? = some (msg.msgHeader.nodeId, msg.propValue) := by
      rw [Packet.forwarded?, hmsg]
    rcases haddressed _ _ hforwarded with ⟨hlt, hback⟩
    rcases Captain.handleCommit_cases hhandle with
      ⟨hmaster, _, name, sent, rfl, hsent⟩ | ⟨hmaster, _, rfl⟩
    · -- The echo costs what the request did.
      have hkinds := not_forwarding_of_opening hsent
      have hreplies : sent.count (.note (.reply value)) = 0 := count_eq_zero_of_kind hkinds
      have hforwards : sent.count (.note (.forward value)) = 0 := count_eq_zero_of_kind hkinds
      have hworth := worth_of_kinds (messagePrice_eq_zero sender value) hkinds
      simp [replies, forwards, messagePrice, Packet.forwarded?, hreplies, hforwards, hworth, hmsg]
    · -- The reply has come back to its sender.
      have hroute : packet.route ≠ .interest := by
        intro hroute
        simp [hrouted.mpr hroute] at hmaster
      have hdst := hback hroute
      rw [messagePrice, hforwarded, hdst]
      by_cases hself : msg.msgHeader.nodeId = sender
      · by_cases heq : msg.propValue = value
        · simp [replies, forwards, heq, hself]
          omega
        · simp [replies, forwards, heq, hself]
      · simp [hself]

/-- The value has been numbered at its node. -/
def numberedAt (i : ℕ) (captain : Captain) : ℤ :=
  if toNodeId value.id = i ∧ 2 ^ 16 ≤ value.id ∧ value.id ≤ captain.valueId then 1 else 0

/-- Every commit of a value that the application does not commit itself was
paid for by numbering the value. -/
theorem commits_audited :
    Audit size (fun call => (∀ name, call ≠ .commit value name) ∧ call ≠ .masterChange value)
      (fun i captain log => (commits log value : ℤ) - numberedAt value i captain)
      (copyPrice true value) where
  nonneg := copyPrice_nonneg true value
  move := by
    intro i setting captain log outs final hnumbered hcalls hquiet hmove
    have hshape := hnumbered.wellKept.shape
    have hmono : numberedAt value i captain ≤ numberedAt value i final := by
      unfold numberedAt
      rcases hmove.valueId_cases hshape with heq | heq
      · rw [heq]
      · rw [heq]
        split <;> split <;> omega
    have hnext : value.id = captain.valueId + 2 ^ 16 → final.valueId = captain.valueId + 2 ^ 16 →
        numberedAt value i captain = 0 ∧ numberedAt value i final = 1 := by
      intro hid hfinal
      have hnode : toNodeId value.id = i := by
        rw [hid, Captain.toNodeId_next]
        exact hnumbered.valueId
      unfold numberedAt
      rw [hfinal, hnode]
      constructor
      · exact if_neg (by omega)
      · exact if_pos (by omega)
    rcases hmove.forward_cases hshape hquiet with ⟨forwarded, dst, hid, hfinal, rfl⟩ | hkinds
    · have hnone : commits [.note (.forward forwarded), .send {
          route := .interest
          dst
          msg := .commit {
            msgHeader := { nodeId := captain.whoami, slotId := 0 }
            propValue := forwarded } }] value = 0 := rfl
      rw [commits_append, hnone]
      by_cases heq : forwarded = value
      · subst heq
        rcases hnext hid hfinal with ⟨hbefore, hafter⟩
        simp [copyPrice, Packet.forwarded?, hbefore, hafter]
      · simp [copyPrice, Packet.forwarded?, heq]
        omega
    · rw [commits_append, worth_of_kinds (copyPrice_eq_zero true value) hkinds]
      rcases hmove.commits_cases hshape value hcalls hquiet with hnone | ⟨hid, hfinal, hone⟩
      · rw [hnone]
        push_cast
        omega
      · rcases hnext hid hfinal with ⟨hbefore, hafter⟩
        rw [hone]
        push_cast
        omega
  commit := by
    intro packet msg captain log outs final _ hmsg _ hrouted hhandle
    rcases Captain.handleCommit_cases hhandle with
      ⟨hmaster, hid, name, sent, rfl, hsent⟩ | ⟨_, hid, rfl⟩
    · have hkinds := not_forwarding_of_opening hsent
      have hworth := worth_of_kinds (copyPrice_eq_zero true value) hkinds
      have hroute := hrouted.mp hmaster
      have hsame : numberedAt value packet.dst final = numberedAt value packet.dst captain := by
        rw [numberedAt, numberedAt, hid]
      rw [commits_append, commits_cons rfl, commits_cons rfl,
        commits_commit value msg.propValue name hsent, hsame]
      by_cases heq : msg.propValue = value
      · simp [copyPrice, Packet.forwarded?, hworth, hroute, hmsg, heq]
        omega
      · simp [copyPrice, Packet.forwarded?, hworth, hroute, hmsg, heq]
    · have hnone : commits [.note (.reply msg.propValue)] value = 0 := rfl
      have hprice := copyPrice_nonneg true value packet
      rw [commits_append, hnone, numberedAt, numberedAt, hid]
      simpa using hprice

end Audits

/-! ## Audited runs -/

/-- The COMMITs sent so far are addressed, and every node numbers its values by
its own id. -/
structure Forwarders (size : ℕ) (nodes : ℕ → Node) : Prop where
  addressed : ∀ i < size, ∀ packet, .send packet ∈ (nodes i).log → packet.Addressed size
  valueId : ∀ i < size, toNodeId (nodes i).captain.valueId = i

theorem forwarders_initial (deployment : Deployment) :
    Forwarders deployment.config.size deployment.node where
  addressed := fun i _ packet hmem => absurd hmem List.not_mem_nil
  valueId := by
    intro i hi
    have hsize := deployment.config.size_le
    have hid : (deployment.node i).captain.valueId = i := if_neg (by omega)
    rw [hid]
    exact toNodeId_of_lt (by omega)

theorem Forwarders.numbered {deployment : Deployment} {nodes : ℕ → Node} {i : ℕ}
    (hforwarders : Forwarders deployment.config.size nodes) (hkeeps : deployment.Keeps nodes)
    (hi : i < deployment.config.size) :
    (nodes i).captain.Numbered deployment.config.size i :=
  ⟨hkeeps.wellKept i hi, hkeeps.whoami hi, hi, hforwarders.valueId i hi⟩

theorem forwarders_preserved {deployment : Deployment} (condition : StepCondition) :
    PreservedByMoves deployment condition (Forwarders deployment.config.size) := by
  intro nodes i setting outs final hi hkeeps hallows hforwarders hmove
  have hnumbered := hforwarders.numbered hkeeps hi
  have hnew : ∀ packet, .send packet ∈ outs → packet.Addressed deployment.config.size := by
    intro packet hmem sender value hforwarded
    rcases hmove.forwarding_cases hnumbered.wellKept.shape with hforward | hkinds
    · cases hforward with
      | crash hcall => simp at hmem
      | forward hcall hmaster hid hsend =>
          rw [Captain.sendInterest_eq_some hsend] at hmem
          simp only [List.mem_cons, reduceCtorEq, List.not_mem_nil, or_false, false_or,
            Output.send.injEq] at hmem
          subst hmem
          simp only [Packet.forwarded?, Option.some.injEq, Prod.mk.injEq] at hforwarded
          rw [← hforwarded.1, hnumbered.whoami]
          exact ⟨hi, fun hroute => absurd rfl hroute⟩
      | @echo msg hreceived hmaster =>
          -- The request came from a node, which has 16 bits.
          rcases hallows.received _ hreceived with ⟨k, hk, request, hlog, _, hmsg⟩
          have hrequest := hforwarders.addressed k hk request hlog msg.msgHeader.nodeId
            msg.propValue (by rw [Packet.forwarded?, hmsg])
          simp only [Captain.sendData, List.cons_append, List.nil_append, List.mem_cons,
            reduceCtorEq, List.not_mem_nil, or_false, Output.send.injEq] at hmem
          subst hmem
          simp only [Packet.forwarded?, Option.some.injEq, Prod.mk.injEq] at hforwarded
          rw [← hforwarded.1]
          have hsize := deployment.config.size_le
          exact ⟨hrequest.1, fun _ => toNodeId_of_lt (by omega)⟩
      | reply hreceived hmaster => simp at hmem
    · rw [forwarded?_eq_none (hkinds _ hmem)] at hforwarded
      simp at hforwarded
  constructor
  · intro j hj packet hmem
    rcases mem_log_actOn.mp hmem with hold | ⟨_, hsent⟩
    · exact hforwarders.addressed j hj packet hold
    · exact hnew packet hsent
  · exact forall_actOn (fun j captain _ => toNodeId captain.valueId = j) hforwarders.valueId
      (hnumbered.move hmove).valueId

def CommitRouted (cluster : Cluster) : Action → Prop
  | .deliver index _ _ => ∀ packet, cluster.net[index]? = some packet →
      packet.forwarded?.isSome → (cluster.nodes packet.dst).captain.Routed packet
  | _ => True

def balance (size : ℕ) (account : ℕ → Captain → List Output → ℤ) (price : Packet → ℤ)
    (cluster : Cluster) : ℤ :=
  Ledger.total (Finset.range size)
    (fun i => account i (cluster.nodes i).captain (cluster.nodes i).log) price cluster.net

section Runs

variable {deployment : Deployment} {calls : Call → Prop}
  {account : ℕ → Captain → List Output → ℤ} {price : Packet → ℤ}

theorem Audit.chain {size i : ℕ} (haudit : Audit size calls account price) (log : List Output)
    {setting : Captain.Setting} {captain final : Captain} {outs : List Output}
    (hnumbered : captain.Numbered size i) (hcalls : ∀ call, setting.calls call → calls call)
    (hquiet : ∀ msg, ¬ setting.received (.commit msg))
    (hchain : OutputChain (Captain.Move setting) captain outs final) :
    account i final (log ++ outs) + Ledger.worth price (packetsOf outs) ≤
      account i captain log := by
  induction hchain generalizing log with
  | nil captain => simp
  | @cons captain next final outs outs' hmove _ ih =>
      have hfirst := haudit.move i setting captain log outs next hnumbered hcalls hquiet hmove
      have hrest := ih (log ++ outs) (hnumbered.move hmove)
      rw [packetsOf_append, Ledger.worth_append, ← List.append_assoc]
      omega

theorem balance_act_le {size i : ℕ} {cluster : Cluster} {net : List Packet} {final : Captain}
    {outs : List Output} (hi : i < size)
    (hpaid : account i final ((cluster.nodes i).log ++ outs) +
        Ledger.worth price (packetsOf outs) + Ledger.worth price net ≤
      account i (cluster.nodes i).captain (cluster.nodes i).log +
        Ledger.worth price cluster.net) :
    balance size account price (cluster.act i net (final, outs)) ≤
      balance size account price cluster := by
  apply Ledger.total_le (Finset.mem_range.mpr hi)
  · intro other hne
    simp [Cluster.act, hne]
  · simp only [Cluster.act, Function.update_self, Node.after, Ledger.worth_append]
    omega

theorem Audit.step (haudit : Audit deployment.config.size calls account price)
    {cluster next : Cluster} {action : Action}
    (hcalls : ∀ call ∈ action.calls, calls call) (hrouted : CommitRouted cluster action)
    (honce : ∀ index, action ≠ .duplicate index)
    (hreaches : Reaches deployment (Forwarders deployment.config.size) cluster)
    (hstep : cluster.step deployment action = some next) :
    balance deployment.config.size account price next ≤
      balance deployment.config.size account price cluster := by
  rcases hreaches with ⟨hkeeps, hsent, hforwarders⟩
  cases action with
  | call i call =>
      rcases Cluster.step_call hstep with ⟨hi, final, outs, hcall, rfl⟩
      let setting : Captain.Setting := { received := fun _ => False, calls := calls }
      have hchain : OutputChain (Captain.Move setting) _ outs final :=
        Captain.call_moves (hcalls call (List.mem_singleton_self call)) hcall
      have hpaid := haudit.chain (cluster.nodes i).log (hforwarders.numbered hkeeps hi)
        (fun _ h => h) (fun _ h => h) hchain
      exact balance_act_le hi (by omega)
  | deliver index dataName app =>
      rcases Cluster.step_deliver hstep with ⟨packet, hpacket, hi, final, outs, hhandle, rfl⟩
      have hnumbered := hforwarders.numbered hkeeps hi
      have hworth := Ledger.worth_eraseIdx price hpacket
      have hnonneg := haudit.nonneg packet
      apply balance_act_le hi
      by_cases hcommit : ∃ msg, packet.msg = .commit msg
      · rcases hcommit with ⟨msg, hmsg⟩
        have hroute : (cluster.nodes packet.dst).captain.Routed packet :=
          hrouted packet hpacket (by simp [Packet.forwarded?, hmsg])
        rcases hsent packet (List.mem_of_getElem? hpacket) with ⟨k, hk, hlog⟩
        have haddressed := hforwarders.addressed k hk packet hlog
        simp only [Captain.handleMsg, hmsg] at hhandle
        split at hhandle
        · rw [Option.some.injEq, Prod.mk.injEq] at hhandle
          rcases hhandle with ⟨rfl, rfl⟩
          simp only [List.append_nil, packetsOf_nil, Ledger.worth_nil]
          omega
        · have hpaid := haudit.commit packet msg _ (cluster.nodes packet.dst).log outs final
            hnumbered hmsg haddressed hroute hhandle
          omega
      · let setting : Captain.Setting :=
          { received := fun msg => ∀ commit, msg ≠ .commit commit
            calls := calls
            dataName := Cluster.arrivalName (cluster.nodes packet.dst).captain packet dataName }
        have hchain : OutputChain (Captain.Move setting) _ outs final :=
          Captain.handleMsg_moves hnumbered.wellKept
            (fun commit heq => hcommit ⟨commit, heq⟩) (fun _ _ _ => trivial) hcalls hhandle
        have hquiet : ∀ commit, ¬ setting.received (.commit commit) :=
          fun commit hreceived => hreceived commit rfl
        have hpaid := haudit.chain (cluster.nodes packet.dst).log hnumbered
          (fun _ h => h) hquiet hchain
        omega
  | lose index =>
      rcases Cluster.step_lose hstep with ⟨hlt, rfl⟩
      have hworth := Ledger.worth_eraseIdx price (List.getElem?_eq_getElem hlt)
      have hnonneg := haudit.nonneg cluster.net[index]
      simp only [balance, Ledger.total]
      omega
  | duplicate index => exact absurd rfl (honce index)

/-- No account is ever overdrawn on the whole. -/
theorem Audit.run (haudit : Audit deployment.config.size calls account price)
    (hopening : ∀ i < deployment.config.size, account i (deployment.node i).captain [] = 0)
    {actions : List Action} {final : Cluster} (hrun : deployment.run actions = some final)
    (hcalls : ∀ action ∈ actions, ∀ call ∈ action.calls, calls call)
    (honce : ∀ action ∈ actions, ∀ index, action ≠ .duplicate index)
    (hrouted : deployment.machine.RunMeets CommitRouted deployment.initial actions) :
    ∑ i ∈ Finset.range deployment.config.size,
      account i (final.nodes i).captain (final.nodes i).log ≤ 0 := by
  have hactions : deployment.machine.RunMeets (fun _ action =>
      (∀ call ∈ action.calls, calls call) ∧ ∀ index, action ≠ .duplicate index)
      deployment.initial actions :=
    PartialMachine.runMeets_of_forall
      (fun action hmem _ => ⟨hcalls action hmem, honce action hmem⟩) _
  have hstart : Reaches deployment (Forwarders deployment.config.size) deployment.initial :=
    ⟨deployment.keeps_initial, fun packet hmem => absurd hmem List.not_mem_nil,
      forwarders_initial deployment⟩
  have hzero : balance deployment.config.size account price deployment.initial ≤ 0 := by
    rw [balance, Ledger.total, Deployment.initial, Ledger.worth_nil, add_zero]
    exact Finset.sum_nonpos fun i hi => (hopening i (Finset.mem_range.mp hi)).le
  have hbalance := (PartialMachine.invariant_of_runMeets
    (fun cluster => Reaches deployment (Forwarders deployment.config.size) cluster ∧
      balance deployment.config.size account price cluster ≤ 0)
    (fun cluster action next hmeets hbefore hstep =>
      ⟨hbefore.1.step (forwarders_preserved {}) hmeets.2 hstep,
        (haudit.step hmeets.1.1.1 hmeets.1.2 hmeets.1.1.2 hbefore.1 hstep).trans hbefore.2⟩)
    ⟨hstart, hzero⟩ ((hactions.and hrouted).and (runMeets_anything deployment actions)) hrun).2
  have hworth := Ledger.worth_nonneg haudit.nonneg final.net
  rw [balance, Ledger.total] at hbalance
  omega

end Runs

theorem sum_numberedAt_le (value : PropValue) (size : ℕ) (nodes : ℕ → Node) :
    ∑ i ∈ Finset.range size, numberedAt value i (nodes i).captain ≤ 1 := by
  calc ∑ i ∈ Finset.range size, numberedAt value i (nodes i).captain
      ≤ ∑ i ∈ Finset.range size, if toNodeId value.id = i then (1 : ℤ) else 0 := by
        apply Finset.sum_le_sum
        intro i _
        unfold numberedAt
        split <;> split <;> omega
    _ ≤ 1 := by
        rw [Finset.sum_ite_eq]
        split <;> simp

theorem numberedAt_initial (deployment : Deployment) (value : PropValue) {i : ℕ}
    (hi : i < deployment.config.size) :
    numberedAt value i (deployment.node i).captain = 0 := by
  have hsize := deployment.config.size_le
  have hid : (deployment.node i).captain.valueId = i := if_neg (by omega)
  rw [numberedAt, hid]
  exact if_neg (by omega)

/-- In every run in which requests reach masters and echoes reach nodes that are
none, a value that the application does not commit itself is committed at most
once on all nodes together; every request comes from a forwarded value, every
reply from a request, and a node gets replies to its own values only. -/
theorem forwarded_once (deployment : Deployment) (actions : List Action) (final : Cluster)
    (hrun : deployment.run actions = some final)
    (honce : ∀ action ∈ actions, ∀ index, action ≠ .duplicate index)
    (hrouted : deployment.machine.RunMeets CommitRouted deployment.initial actions)
    (value : PropValue) :
    ((∀ action ∈ actions, ∀ call ∈ action.calls,
        (∀ name, call ≠ .commit value name) ∧ call ≠ .masterChange value) →
      ∑ i ∈ Finset.range deployment.config.size, commits (final.nodes i).log value ≤ 1) ∧
    ∑ i ∈ Finset.range deployment.config.size, requests (final.nodes i).log value ≤
      ∑ i ∈ Finset.range deployment.config.size, forwards (final.nodes i).log value ∧
    ∑ i ∈ Finset.range deployment.config.size, replies (final.nodes i).log value ≤
      ∑ i ∈ Finset.range deployment.config.size, requests (final.nodes i).log value ∧
    ∀ j < deployment.config.size,
      replies (final.nodes j).log value ≤ forwards (final.nodes j).log value := by
  refine ⟨?_, ?_, ?_, ?_⟩
  · intro hcalls
    have hopening : ∀ i < deployment.config.size,
        (commits [] value : ℤ) - numberedAt value i (deployment.node i).captain = 0 := by
      intro i hi
      rw [numberedAt_initial deployment value hi]
      rfl
    have hpaid := (commits_audited value).run hopening hrun hcalls honce hrouted
    have hnumbered := sum_numberedAt_le value deployment.config.size final.nodes
    rw [Finset.sum_sub_distrib] at hpaid
    zify
    omega
  · have hpaid := (requests_audited value).run (fun _ _ => rfl) hrun (fun _ _ _ _ => trivial)
      honce hrouted
    rw [Finset.sum_sub_distrib] at hpaid
    zify
    omega
  · have hpaid := (echoes_audited value).run (fun _ _ => rfl) hrun (fun _ _ _ _ => trivial)
      honce hrouted
    rw [Finset.sum_sub_distrib] at hpaid
    zify
    omega
  · intro j hj
    have hopening : ∀ i < deployment.config.size,
        (if i = j then (replies [] value : ℤ) - forwards [] value else 0) = 0 := by
      intro i _
      split <;> rfl
    have hpaid := (replies_audited value j).run hopening hrun (fun _ _ _ _ => trivial)
      honce hrouted
    rw [Finset.sum_ite_eq', if_pos (Finset.mem_range.mpr hj)] at hpaid
    omega

instance decidableCommitRouted (cluster : Cluster) (action : Action) :
    Decidable (CommitRouted cluster action) :=
  Action.casesOn (motive := fun action => Decidable (CommitRouted cluster action)) action
    (fun _ _ => inferInstanceAs (Decidable True))
    (fun index _ _ =>
      have : ∀ packet, Decidable ((cluster.nodes packet.dst).captain.Routed packet) :=
        fun _ => inferInstanceAs (Decidable (_ ↔ _))
      inferInstanceAs (Decidable (∀ packet ∈ cluster.net[index]?,
        packet.forwarded?.isSome → (cluster.nodes packet.dst).captain.Routed packet)))
    (fun _ => inferInstanceAs (Decidable True)) (fun _ => inferInstanceAs (Decidable True))

theorem forwarded_once_twoNodes :
    ∃ final, Deployment.run { config := twoNodes .basic }
        (.call 1 (.commitData [7] none) :: List.replicate 2 (.deliver 0 [] {})) = some final ∧
      commits (final.nodes 0).log { id := 65537, data := [7] } = 1 ∧
      replies (final.nodes 1).log { id := 65537, data := [7] } = 1 ∧
      ∑ i ∈ Finset.range 2, commits (final.nodes i).log { id := 65537, data := [7] } ≤ 1 := by
  have hrouted : ({ config := twoNodes .basic } : Deployment).machine.RunMeets CommitRouted
      ({ config := twoNodes .basic } : Deployment).initial
      (.call 1 (.commitData [7] none) :: List.replicate 2 (.deliver 0 [] {})) := by
    decide
  have hfinal : (Deployment.run { config := twoNodes .basic }
      (.call 1 (.commitData [7] none) :: List.replicate 2 (.deliver 0 [] {}))).map
        (fun final => (commits (final.nodes 0).log { id := 65537, data := [7] },
          replies (final.nodes 1).log { id := 65537, data := [7] })) = some (1, 1) := by
    decide
  rcases Option.map_eq_some_iff.mp hfinal with ⟨final, hrun, hfinal⟩
  rw [Prod.mk.injEq] at hfinal
  have honce := forwarded_once { config := twoNodes .basic } _ final hrun (by simp) hrouted
    { id := 65537, data := [7] }
  exact ⟨final, hrun, hfinal.1, hfinal.2, honce.1 (by simp [Action.calls])⟩

/-- Node 1 becomes the master, and node 2 forwards a value to it while its own
SET_MASTER command, put off by the lost slot 1, is in Phase II of slot 2. -/
def mastersInTurn : List Action :=
  .call 1 (.masterChange { id := 262145 }) :: deliveries [] [1, 2] ++
  .call 1 (.commit { id := 327681 } none) :: deliveries [] [1, 1, 2, 3, 2, 2, 3, 5, 6, 3] ++
  .call 2 (.masterChange { id := 262146 }) :: deliveries [] [7, 7] ++
  [.call 2 (.commit { id := 327682 } none), .call 2 (.commitData [7] none)] ++
  deliveries [] [6, 7, 9, 9, 8, 8, 10, 12, 12, 11, 11, 13, 13, 12, 6, 11, 14, 16, 16, 11]

/-- Node 2 becomes the master while the echo of its request is in flight, takes
the echo for a request and commits its value a second time. -/
theorem forwarded_once_masterChange_counterexample :
    ∃ final, Deployment.run { config := threeNodes .basic } mastersInTurn = some final ∧
      Deployment.RunByCommo { config := threeNodes .basic } mastersInTurn ∧
      forwards (final.nodes 2).log { id := 131074, data := [7] } = 1 ∧
      commits (final.nodes 1).log { id := 131074, data := [7] } = 1 ∧
      commits (final.nodes 2).log { id := 131074, data := [7] } = 1 ∧
      replies (final.nodes 2).log { id := 131074, data := [7] } = 0 := by
  have hfinal : (Deployment.run { config := threeNodes .basic } mastersInTurn).map
        (fun final => (forwards (final.nodes 2).log { id := 131074, data := [7] },
          commits (final.nodes 1).log { id := 131074, data := [7] },
          commits (final.nodes 2).log { id := 131074, data := [7] },
          replies (final.nodes 2).log { id := 131074, data := [7] })) = some (1, 1, 1, 0) := by
    decide +kernel
  rcases Option.map_eq_some_iff.mp hfinal with ⟨final, hrun, hfinal⟩
  simp only [Prod.mk.injEq] at hfinal
  exact ⟨final, hrun, by decide +kernel, hfinal⟩

end NDNPaxos
