import NDNPaxos.Captain
import NDNPaxos.NdnName
import NDNPaxos.Library.PartialMachine
import Mathlib.Tactic

/-!
# Commit Interests

A client puts its requests into the names of Interests, and `Commo` of the
master takes them apart again.  The numbers come back as they were; the value
is read as the text of a URI, so it comes back only when nothing in it is
escaped.
-/

namespace NDNPaxos

/-- The last four components of `/prefix/commit/write_or_read/client_id/commit_counter/value`. -/
structure CommitRequest where
  /-- 0 writes and 1 reads. -/
  type : ℤ
  clientId : ℤ
  commitCounter : ℤ
  value : Bytes
deriving DecidableEq, Repr

/-! ## The client -/

/-- `comWin` and `ratio` are of type `int`; the flags and counters for the
measurements are left out. -/
structure Client where
  commitPrefix : Name
  comWin : ℤ
  ratio : ℤ
  commitCounter : ℕ := 0
  randCounter : ℕ := 0
  done : Bool := false
  comWin_lt : comWin < 2 ^ 31

/-- The length of `starts_`. -/
def startsSize : ℕ := 20000000

namespace Client

def new (name : Name) (commitWin ratio : ℤ) (hwin : commitWin < 2 ^ 31) : Client where
  commitPrefix := name ++ [bytesOf "commit"]
  comWin := commitWin
  ratio
  comWin_lt := hwin

def writeOrRead (client : Client) : ℤ := if client.ratio = 10 then 1 else 0

def interestName (client : Client) (ndn : NdnCxx) (request : CommitRequest) : Name :=
  client.commitPrefix ++ [ndn.appendNumber (toUInt64 request.type),
    ndn.appendNumber (toUInt64 request.clientId),
    ndn.appendNumber (toUInt64 request.commitCounter), request.value]

def valueText (commitCounter : ℕ) (clientId : ℤ) : Bytes :=
  bytesOf ("Commiting Value Time_" ++ toString commitCounter ++ " from " ++ "client_" ++
    toString clientId)

/-- `rand_counter_` after the draw at every tenth request. -/
def redraw (client : Client) (random : ℕ) : Client :=
  if client.commitCounter % 10 = 0 then
    { client with randCounter := client.commitCounter + random % 10 }
  else client

/-- Read or write, with the result of `rand()` that may be drawn. -/
def nextType (client : Client) (random : ℕ) : ℤ × Client :=
  if client.ratio < 100 then
    if client.ratio = 0 then (1, client)
    else
      let client := client.redraw random
      if client.commitCounter = client.randCounter then (1 - client.writeOrRead, client)
      else (client.writeOrRead, client)
  else (client.writeOrRead, client)

/-- The next request of one of the concurrent clients; `none` is an index past
the end of `starts_`. -/
def request (client : Client) (clientId : ℤ) (random : ℕ) : Option (CommitRequest × Client) :=
  if client.commitCounter < startsSize then
    let (type, next) := client.nextType random
    some ({ type, clientId, commitCounter := client.commitCounter
            value := valueText client.commitCounter clientId },
      { next with commitCounter := client.commitCounter + 1 })
  else none

end Client

structure ClientRun where
  client : Client
  started : ℕ := 0
  sent : List CommitRequest := []

inductive ClientAction where
  /-- The next iteration of the loop of `start_commit`. -/
  | commit (random : ℕ)
  /-- `start_commit` sets `done_`. -/
  | finish
  /-- `onData` for the Interest sent at this place. -/
  | data (index : ℕ) (random : ℕ)
deriving DecidableEq, Repr

/-- `int` read from the component `get(-1 - i)`. -/
def Name.number (name : Name) (ndn : NdnCxx) (i : ℕ) : Option ℤ := do
  let component ← name.getBack i
  let number ← ndn.toNumber component
  return toInt32 number

namespace ClientRun

def send (run : ClientRun) (clientId : ℤ) (random : ℕ) : Option ClientRun := do
  let (request, client) ← run.client.request clientId random
  return { run with client, sent := run.sent ++ [request] }

def step (ndn : NdnCxx) (run : ClientRun) : ClientAction → Option ClientRun
  | .commit random =>
      if (run.started : ℤ) < run.client.comWin then do
        let next ← run.send run.started random
        return { next with started := run.started + 1 }
      else none
  | .finish =>
      if (run.started : ℤ) < run.client.comWin then none
      else some { run with client := { run.client with done := true } }
  | .data index random => do
      let request ← run.sent[index]?
      let inName := run.client.interestName ndn request
      let _commitCounter ← inName.number ndn 1
      let clientId ← inName.number ndn 2
      let _type ← inName.number ndn 3
      if run.client.done then some run else run.send clientId random

def machine (ndn : NdnCxx) : PartialMachine ClientRun ClientAction := { step := step ndn }

end ClientRun

/-! ## The master -/

/-- What `onInterestCommit` reads from the name of the Interest. -/
def parseCommit (ndn : NdnCxx) (inName : Name) : Option CommitRequest := do
  let component ← inName.getBack 0
  let value := ndn.toUri component
  let commitCounter ← inName.number ndn 1
  let clientId ← inName.number ndn 2
  let type ← inName.number ndn 3
  return { type, clientId, commitCounter, value }

inductive Served where
  /-- `Captain::commit` has run. -/
  | committed (final : Captain) (outs : List Output)
  /-- A Data packet with the content answers the Interest. -/
  | produced (content : Bytes) (dataName : Name)

/-- The value with which `commit(PropValue*, Name&)` is called. -/
def Served.handed? : Served → Option PropValue
  | .committed _ (.note (.commit value _) :: _) => some value
  | _ => none

/-- `Commo::onInterestCommit`. -/
def Captain.onInterestCommit (captain : Captain) (ndn : NdnCxx) (inName : Name) :
    Option Served := do
  let request ← parseCommit ndn inName
  if request.type = 0 then
    let (final, outs) ← captain.commitData request.value (some inName)
    return .committed final outs
  else
    return .produced (bytesOf "Need to change here") inName

/-! ## What comes back -/

section Recovery

variable {ndn : NdnCxx} {client : Client} {request : CommitRequest}

structure CommitRequest.Fits (request : CommitRequest) : Prop where
  type : request.type = 0 ∨ request.type = 1
  clientId_low : -2 ^ 31 ≤ request.clientId
  clientId_high : request.clientId < 2 ^ 31
  commitCounter_low : 0 ≤ request.commitCounter
  commitCounter_high : request.commitCounter < startsSize

theorem number_of_getBack (hndn : ndn.Documented) {name : Name} {i : ℕ} {value : ℤ}
    (hname : name.getBack i = some (ndn.appendNumber (toUInt64 value)))
    (hlow : -2 ^ 31 ≤ value) (hhigh : value < 2 ^ 31) : name.number ndn i = some value := by
  have hnumber := hndn.toNumber_appendNumber (toUInt64 value) (toUInt64_lt value)
  simp only [Name.number, hname, Option.bind_eq_bind, Option.bind_some, hnumber, pure,
    toInt32_toUInt64 hlow hhigh]

/-- The numbers come back as they are, the value as the text of a URI. -/
theorem parseCommit_interestName (hndn : ndn.Documented) (hfits : request.Fits) :
    parseCommit ndn (client.interestName ndn request) =
      some { request with value := ndn.toUri request.value } := by
  have hback : ∀ i, (client.interestName ndn request).getBack i =
      ([request.value, ndn.appendNumber (toUInt64 request.commitCounter),
        ndn.appendNumber (toUInt64 request.clientId), ndn.appendNumber (toUInt64 request.type)] ++
          client.commitPrefix.reverse)[i]? := by
    intro i
    rw [Name.getBack, Client.interestName, List.reverse_append]
    rfl
  have hcounter : (client.interestName ndn request).number ndn 1 = some request.commitCounter := by
    have hhigh := hfits.commitCounter_high
    unfold startsSize at hhigh
    exact number_of_getBack hndn (hback 1)
      (le_trans (by norm_num) hfits.commitCounter_low) (by omega)
  have hclient : (client.interestName ndn request).number ndn 2 = some request.clientId :=
    number_of_getBack hndn (hback 2) hfits.clientId_low hfits.clientId_high
  have htype : (client.interestName ndn request).number ndn 3 = some request.type := by
    have htypes := hfits.type
    exact number_of_getBack hndn (hback 3) (by omega) (by omega)
  simp only [parseCommit, hback 0, hcounter, hclient, htype]
  rfl

end Recovery

/-! ## Runs of the client -/

theorem Client.nextType_type (client : Client) (random : ℕ) :
    (client.nextType random).1 = 0 ∨ (client.nextType random).1 = 1 := by
  have hflag : ∀ other : Client, other.writeOrRead = 0 ∨ other.writeOrRead = 1 := by
    intro other
    unfold writeOrRead
    split
    · exact .inr rfl
    · exact .inl rfl
  have hflip : ∀ other : Client, 1 - other.writeOrRead = 0 ∨ 1 - other.writeOrRead = 1 := by
    intro other
    have hother := hflag other
    omega
  unfold nextType
  by_cases hmixed : client.ratio < 100
  · rw [if_pos hmixed]
    by_cases hreads : client.ratio = 0
    · rw [if_pos hreads]
      exact .inr rfl
    · rw [if_neg hreads]
      dsimp only
      split
      · exact hflip _
      · exact hflag _
  · rw [if_neg hmixed]
    exact hflag client

structure CommitRequest.Made (request : CommitRequest) : Prop extends request.Fits where
  value : ∃ commitCounter : ℕ, request.commitCounter = commitCounter ∧
    request.value = Client.valueText commitCounter request.clientId

theorem Client.request_made {client next : Client} {request : CommitRequest} {clientId : ℤ}
    {random : ℕ} (hlow : -2 ^ 31 ≤ clientId) (hhigh : clientId < 2 ^ 31)
    (hrequest : client.request clientId random = some (request, next)) : request.Made := by
  unfold Client.request at hrequest
  split at hrequest
  next hcounter =>
    simp only [Option.some.injEq, Prod.mk.injEq] at hrequest
    rcases hrequest with ⟨rfl, rfl⟩
    exact ⟨⟨client.nextType_type random, hlow, hhigh, Int.natCast_nonneg _,
      Int.ofNat_lt.mpr hcounter⟩, client.commitCounter, rfl, rfl⟩
  next => simp at hrequest

namespace ClientRun

variable {ndn : NdnCxx} {run next : ClientRun}

def AllMade (run : ClientRun) : Prop := ∀ request ∈ run.sent, request.Made

theorem AllMade.send {clientId : ℤ} {random : ℕ} (hmade : run.AllMade)
    (hlow : -2 ^ 31 ≤ clientId) (hhigh : clientId < 2 ^ 31)
    (hsend : run.send clientId random = some next) : next.AllMade := by
  simp only [ClientRun.send, Option.bind_eq_bind, Option.bind_eq_some_iff, Prod.exists, pure,
    Option.some.injEq] at hsend
  rcases hsend with ⟨request, client, hrequest, rfl⟩
  intro other hmem
  rcases List.mem_append.mp hmem with hold | hnew
  · exact hmade other hold
  · rw [List.mem_singleton.mp hnew]
    exact Client.request_made hlow hhigh hrequest

theorem AllMade.step {action : ClientAction} (hndn : ndn.Documented) (hmade : run.AllMade)
    (hstep : run.step ndn action = some next) : next.AllMade := by
  cases action with
  | commit random =>
      simp only [ClientRun.step] at hstep
      split at hstep
      next hstarted =>
        simp only [Option.bind_eq_bind, Option.bind_eq_some_iff, pure, Option.some.injEq] at hstep
        rcases hstep with ⟨last, hsend, rfl⟩
        have hwin := run.client.comWin_lt
        have hlast : last.AllMade := hmade.send (by omega) (by omega) hsend
        exact hlast
      next => simp at hstep
  | finish =>
      simp only [ClientRun.step] at hstep
      split at hstep
      next => simp at hstep
      next =>
        rw [Option.some.injEq] at hstep
        exact hstep ▸ hmade
  | data index random =>
      simp only [ClientRun.step, Option.bind_eq_bind, Option.bind_eq_some_iff] at hstep
      rcases hstep with ⟨request, hrequest, counter, _, clientId, hclientId, type, _, hstep⟩
      have hfits := (hmade request (List.mem_of_getElem? hrequest)).toFits
      -- The client reads its own id back.
      have hparse := @parseCommit_interestName ndn run.client request hndn hfits
      have hsame : clientId = request.clientId := by
        simp only [parseCommit, Option.bind_eq_bind, Option.bind_eq_some_iff, pure,
          Option.some.injEq] at hparse
        rcases hparse with ⟨component, _, found, _, other, hother, kind, _, heq⟩
        rw [hclientId, Option.some.injEq] at hother
        rw [hother]
        exact congrArg CommitRequest.clientId heq
      split at hstep
      · rw [Option.some.injEq] at hstep
        exact hstep ▸ hmade
      · rw [hsame] at hstep
        exact hmade.send hfits.clientId_low hfits.clientId_high hstep

theorem made_of_run (hndn : ndn.Documented) (client : Client) {actions : List ClientAction}
    {final : ClientRun} (hrun : (machine ndn).run { client } actions = some final) :
    final.AllMade :=
  PartialMachine.invariant_of_run AllMade (fun _ _ _ hmade hstep => hmade.step hndn hstep)
    (fun _ hmem => absurd hmem List.not_mem_nil) hrun

end ClientRun

/-! ## Values -/

def Captain.Commits (captain : Captain) (ndn : NdnCxx) (inName : Name) (value : Bytes) : Prop :=
  ((captain.onInterestCommit ndn inName).bind Served.handed?).map PropValue.data = some value

instance decidableCommits (captain : Captain) (ndn : NdnCxx) (inName : Name) (value : Bytes) :
    Decidable (captain.Commits ndn inName value) :=
  inferInstanceAs (Decidable (_ = some value))

theorem Captain.commitData_master {captain : Captain} (hmaster : captain.view.ifMaster = true)
    (data : Bytes) (name : Name) :
    ∃ final outs, captain.commitData data (some name) =
      some (final, .note (.commit { id := captain.valueId + 2 ^ 16, data } name) :: outs) := by
  unfold commitData
  simp only [hmaster, if_true, commitRef, Option.bind_eq_bind, pure]
  unfold commit
  simp only
  split
  · exact ⟨_, [], rfl⟩
  · split
    · exact ⟨_, [], rfl⟩
    · split
      next =>
        have hfront : ∀ other : Captain, ∃ front frontName rest,
            (other.pushBack { id := captain.valueId + 2 ^ 16, data } name).popFront =
              some (front, frontName, rest) := by
          intro other
          unfold pushBack popFront
          cases other.tocommitValues <;> cases other.tocommitClients <;> exact ⟨_, _, _, rfl⟩
        rcases hfront { captain with valueId := captain.valueId + 2 ^ 16 } with
          ⟨front, frontName, rest, hpop⟩
        rw [hpop]
        exact ⟨_, _, rfl⟩
      next => exact ⟨_, _, rfl⟩

theorem Captain.commits_iff {captain : Captain} {ndn : NdnCxx} {inName : Name}
    {request : CommitRequest} (hmaster : captain.view.ifMaster = true)
    (hparse : parseCommit ndn inName = some request) (hwrite : request.type = 0) (value : Bytes) :
    captain.Commits ndn inName value ↔ request.value = value := by
  rcases captain.commitData_master hmaster request.value inName with ⟨final, outs, hcommit⟩
  unfold Commits onInterestCommit
  simp [hparse, hwrite, hcommit, Served.handed?]

/-- Whatever the client puts into an Interest comes back exactly when the bytes
of the value need no escape in a URI. -/
theorem commit_interest_recovered_iff (ndn : NdnCxx) (hndn : ndn.Documented) (client : Client)
    (actions : List ClientAction) (final : ClientRun)
    (hrun : (ClientRun.machine ndn).run { client } actions = some final)
    (request : CommitRequest) (hmem : request ∈ final.sent) (value : Bytes) (captain : Captain)
    (hmaster : captain.view.ifMaster = true) :
    (parseCommit ndn (client.interestName ndn { request with value }) =
        some { request with value } ↔ Plain value) ∧
      (request.type = 0 →
        (captain.Commits ndn (client.interestName ndn { request with value }) value ↔
          Plain value)) := by
  have hfits := (ClientRun.made_of_run hndn client hrun request hmem).toFits
  have hparse := @parseCommit_interestName ndn client { request with value } hndn
    ⟨hfits.type, hfits.clientId_low, hfits.clientId_high, hfits.commitCounter_low,
      hfits.commitCounter_high⟩
  rw [← hndn.toUri_eq_self_iff]
  constructor
  · rw [hparse, Option.some.injEq, CommitRequest.mk.injEq]
    exact ⟨fun hsame => hsame.2.2.2, fun hsame => ⟨rfl, rfl, rfl, hsame⟩⟩
  · exact fun hwrite => Captain.commits_iff hmaster hparse hwrite value

def writingClient : Client := .new [bytesOf "ndn"] 1 100 (by norm_num)

theorem commit_interest_recovered_iff_writingClient :
    ∃ final request, (ClientRun.machine ndnCxx).run { client := writingClient } [.commit 0] =
        some final ∧ request ∈ final.sent ∧ request.type = 0 ∧
      parseCommit ndnCxx (writingClient.interestName ndnCxx
          { request with value := bytesOf "abc" }) = some { request with value := bytesOf "abc" } ∧
      (Captain.new (twoNodes .basic) 0 1).Commits ndnCxx
        (writingClient.interestName ndnCxx { request with value := bytesOf "abc" })
          (bytesOf "abc") := by
  have hfinal : ((ClientRun.machine ndnCxx).run { client := writingClient } [.commit 0]).map
      (fun final => final.sent.map CommitRequest.type) = some [0] := by
    decide
  rcases Option.map_eq_some_iff.mp hfinal with ⟨final, hrun, htypes⟩
  rcases List.map_eq_singleton_iff.mp htypes with ⟨request, hsent, hwrite⟩
  have hmem : request ∈ final.sent := by simp [hsent]
  have hrecovered := commit_interest_recovered_iff ndnCxx ndnCxx_documented writingClient
    [.commit 0] final hrun request hmem (bytesOf "abc") (Captain.new (twoNodes .basic) 0 1)
    (by decide)
  have hplain : Plain (bytesOf "abc") := by decide +kernel
  exact ⟨final, request, hrun, hmem, hwrite, hrecovered.1.mpr hplain,
    (hrecovered.2 hwrite).mpr hplain⟩

/-- The first value of a client is committed with its blanks escaped. -/
theorem commit_interest_escaped :
    ∃ final request, (ClientRun.machine ndnCxx).run { client := writingClient } [.commit 0] =
        some final ∧ request ∈ final.sent ∧ request.type = 0 ∧
      request.value = bytesOf "Commiting Value Time_0 from client_0" ∧
      parseCommit ndnCxx (writingClient.interestName ndnCxx request) =
        some { request with value := bytesOf "Commiting%20Value%20Time_0%20from%20client_0" } ∧
      ¬ (Captain.new (twoNodes .basic) 0 1).Commits ndnCxx
        (writingClient.interestName ndnCxx request) request.value := by
  have hfinal : ((ClientRun.machine ndnCxx).run { client := writingClient } [.commit 0]).map
      ClientRun.sent = some [⟨0, 0, 0, bytesOf "Commiting Value Time_0 from client_0"⟩] := by
    decide
  rcases Option.map_eq_some_iff.mp hfinal with ⟨final, hrun, hsent⟩
  refine ⟨final, _, hrun, hsent ▸ List.mem_singleton_self _, rfl, rfl, ?_, ?_⟩ <;> decide

/-! ## The values of the client -/

theorem bytesOf_append (front back : String) :
    bytesOf (front ++ back) = bytesOf front ++ bytesOf back := by
  unfold bytesOf
  rw [String.toUTF8_eq_toByteArray, String.toByteArray_append]
  exact ByteArray.toList_data_append

theorem not_plain_valueText (commitCounter : ℕ) (clientId : ℤ) :
    ¬ Plain (Client.valueText commitCounter clientId) := by
  intro hplain
  have hblank : (32 : UInt8) ∈ bytesOf "Commiting Value Time_" := by decide
  have hmem : (32 : UInt8) ∈ Client.valueText commitCounter clientId := by
    unfold Client.valueText
    simp only [bytesOf_append, List.append_assoc]
    exact List.mem_append_left _ hblank
  exact absurd (hplain.1 32 hmem) (by decide)

/-- No value that a client writes is committed as it is. -/
theorem client_values_escaped {ndn : NdnCxx} (hndn : ndn.Documented) {client : Client}
    {actions : List ClientAction} {final : ClientRun}
    (hrun : (ClientRun.machine ndn).run { client } actions = some final)
    {request : CommitRequest} (hmem : request ∈ final.sent) (hwrite : request.type = 0)
    {captain : Captain} (hmaster : captain.view.ifMaster = true) :
    ¬ captain.Commits ndn (client.interestName ndn request) request.value := by
  have hmade := ClientRun.made_of_run hndn client hrun request hmem
  rcases hmade.value with ⟨commitCounter, _, hvalue⟩
  rw [Captain.commits_iff hmaster (parseCommit_interestName hndn hmade.toFits) hwrite,
    hndn.toUri_eq_self_iff, hvalue]
  exact not_plain_valueText commitCounter request.clientId

end NDNPaxos
