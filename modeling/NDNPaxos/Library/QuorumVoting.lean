import Mathlib.Data.Finset.Card
import Mathlib.Tactic.Common

/-!
# Voting by quorums

Ballots are natural numbers.  A node promises to cast no vote below a ballot
and votes in ballots, each of which has at most one proposed value.  A proposal
is safe when no lower ballot can choose another value any more; only the `live`
ballots, those that may ever carry a proposal, have to be excluded.  Safety of
a proposal is stable, which gives agreement for every history of promises,
votes and safe proposals.
-/

structure Voting (Node Value : Type*) where
  promised : Node → ℕ
  voted : Node → ℕ → Value → Prop
  proposed : ℕ → Value → Prop

namespace Voting

variable {Node Value : Type*}

/-- The node has not voted in the ballot and its promise excludes it. -/
def WontVote (voting : Voting Node Value) (node : Node) (ballot : ℕ) : Prop :=
  ballot < voting.promised node ∧ ∀ value, ¬ voting.voted node ballot value

section Quorums

variable (quorum : Finset Node → Prop) (live : ℕ → Prop)

/-- Each set of the one family meets each set of the other. -/
def Crossing (write read : Finset Node → Prop) : Prop :=
  ∀ members members', write members → read members' →
    ∃ node, node ∈ members ∧ node ∈ members'

def Intersecting : Prop :=
  ∀ members members', quorum members → quorum members' →
    ∃ node, node ∈ members ∧ node ∈ members'

def ChosenAt (voting : Voting Node Value) (ballot : ℕ) (value : Value) : Prop :=
  ∃ members, quorum members ∧ ∀ node ∈ members, voting.voted node ballot value

/-- No live ballot below can choose anything but the value. -/
def SafeAt (voting : Voting Node Value) (ballot : ℕ) (value : Value) : Prop :=
  ∀ lower < ballot, live lower →
    ∃ members, quorum members ∧
      ∀ node ∈ members, voting.voted node lower value ∨ voting.WontVote node lower

structure Sound (voting : Voting Node Value) : Prop where
  proposed_of_voted : ∀ node ballot value,
    voting.voted node ballot value → voting.proposed ballot value
  proposed_unique : ∀ ballot value value',
    voting.proposed ballot value → voting.proposed ballot value' → value = value'
  live_of_proposed : ∀ ballot value, voting.proposed ballot value → live ballot
  safe_of_proposed : ∀ ballot value,
    voting.proposed ballot value → voting.SafeAt quorum live ballot value

end Quorums

variable {quorum : Finset Node → Prop} {live : ℕ → Prop}

/-- Sets that are together larger than a finite universe meet. -/
theorem crossing_of_card_lt [DecidableEq Node] {univ : Finset Node} {write read : ℕ}
    (hsize : univ.card < write + read) :
    Crossing (fun members : Finset Node => members ⊆ univ ∧ write ≤ members.card)
      (fun members => members ⊆ univ ∧ read ≤ members.card) := by
  rintro members members' ⟨hsub, hcard⟩ ⟨hsub', hcard'⟩
  have hlt : univ.card < members.card + members'.card := by omega
  obtain ⟨node, hnode⟩ :=
    Finset.inter_nonempty_of_card_lt_card_add_card hsub hsub' hlt
  exact ⟨node, Finset.mem_inter.mp hnode⟩

/-- Sets that hold more than half of a finite universe intersect. -/
theorem intersecting_of_card_lt [DecidableEq Node] {univ : Finset Node} {size : ℕ}
    (hsize : univ.card < size + size) :
    Intersecting fun members : Finset Node => members ⊆ univ ∧ size ≤ members.card :=
  crossing_of_card_lt hsize

/-! ## Agreement -/

section Agreement

variable {write : Finset Node → Prop} {voting : Voting Node Value}

theorem ChosenAt.proposed (hsound : voting.Sound quorum live)
    (hsome : ∀ members, write members → members.Nonempty) {ballot : ℕ} {value : Value}
    (hchosen : voting.ChosenAt write ballot value) : voting.proposed ballot value := by
  obtain ⟨members, hwrite, hvoted⟩ := hchosen
  obtain ⟨node, hnode⟩ := hsome members hwrite
  exact hsound.proposed_of_voted node ballot value (hvoted node hnode)

theorem Sound.agreement_of_lt (hsound : voting.Sound quorum live)
    (hcross : Crossing write quorum) (hsome : ∀ members, write members → members.Nonempty)
    {lower ballot : ℕ} {value value' : Value} (hlt : lower < ballot)
    (hlower : voting.ChosenAt write lower value)
    (hchosen : voting.ChosenAt write ballot value') : value = value' := by
  have hproposed := hchosen.proposed hsound hsome
  have hlive := hsound.live_of_proposed lower value (hlower.proposed hsound hsome)
  obtain ⟨members, hwrite, hvoted⟩ := hlower
  obtain ⟨blocking, hblocking, hsafe⟩ :=
    hsound.safe_of_proposed ballot value' hproposed lower hlt hlive
  obtain ⟨node, hmember, hblock⟩ := hcross members blocking hwrite hblocking
  have hvote := hvoted node hmember
  rcases hsafe node hblock with hvote' | hwont
  · exact hsound.proposed_unique lower value value'
      (hsound.proposed_of_voted node lower value hvote)
      (hsound.proposed_of_voted node lower value' hvote')
  · exact absurd hvote (hwont.2 value)

/-- Two values that are chosen by sets which meet all quorums are equal. -/
theorem Sound.agreement_of_crossing (hsound : voting.Sound quorum live)
    (hcross : Crossing write quorum) (hsome : ∀ members, write members → members.Nonempty)
    {ballot ballot' : ℕ} {value value' : Value} (hchosen : voting.ChosenAt write ballot value)
    (hchosen' : voting.ChosenAt write ballot' value') : value = value' := by
  rcases Nat.lt_trichotomy ballot ballot' with hlt | heq | hgt
  · exact hsound.agreement_of_lt hcross hsome hlt hchosen hchosen'
  · subst heq
    exact hsound.proposed_unique ballot value value'
      (hchosen.proposed hsound hsome) (hchosen'.proposed hsound hsome)
  · exact (hsound.agreement_of_lt hcross hsome hgt hchosen' hchosen).symm

/-- Two chosen values are equal. -/
theorem Sound.agreement (hsound : voting.Sound quorum live)
    (hinter : Intersecting quorum) {ballot ballot' : ℕ} {value value' : Value}
    (hchosen : voting.ChosenAt quorum ballot value)
    (hchosen' : voting.ChosenAt quorum ballot' value') : value = value' := by
  refine hsound.agreement_of_crossing hinter ?_ hchosen hchosen'
  intro members hquorum
  obtain ⟨node, hnode, _⟩ := hinter members members hquorum hquorum
  exact ⟨node, hnode⟩

end Agreement

/-! ## Steps -/

/-- Promises only rise, votes are kept, and a new vote respects the promise. -/
structure Extends (before after : Voting Node Value) : Prop where
  promised : ∀ node, before.promised node ≤ after.promised node
  voted : ∀ node ballot value,
    before.voted node ballot value → after.voted node ballot value
  late : ∀ node ballot value, after.voted node ballot value →
    before.voted node ballot value ∨ before.promised node ≤ ballot

variable {before after : Voting Node Value}

theorem Extends.wontVote (hextends : Extends before after) {node : Node} {ballot : ℕ}
    (hwont : before.WontVote node ballot) : after.WontVote node ballot := by
  obtain ⟨hpromised, hnone⟩ := hwont
  refine ⟨lt_of_lt_of_le hpromised (hextends.promised node), ?_⟩
  intro value hvoted
  rcases hextends.late node ballot value hvoted with hold | hlate
  · exact hnone value hold
  · omega

theorem Extends.chosenAt (hextends : Extends before after) {ballot : ℕ} {value : Value}
    (hchosen : before.ChosenAt quorum ballot value) :
    after.ChosenAt quorum ballot value := by
  obtain ⟨members, hquorum, hvoted⟩ := hchosen
  exact ⟨members, hquorum, fun node hnode => hextends.voted node ballot value (hvoted node hnode)⟩

theorem Extends.safeAt (hextends : Extends before after) {ballot : ℕ} {value : Value}
    (hsafe : before.SafeAt quorum live ballot value) :
    after.SafeAt quorum live ballot value := by
  intro lower hlt hlive
  obtain ⟨members, hquorum, hmembers⟩ := hsafe lower hlt hlive
  refine ⟨members, hquorum, ?_⟩
  intro node hnode
  rcases hmembers node hnode with hvoted | hwont
  · exact .inl (hextends.voted node lower value hvoted)
  · exact .inr (hextends.wontVote hwont)

/-- What a step has to show: its votes are for proposals, and its proposals
are safe and alone in their ballot. -/
theorem Sound.extend (hsound : before.Sound quorum live) (hextends : Extends before after)
    (hvoted : ∀ node ballot value, after.voted node ballot value →
      after.proposed ballot value)
    (hunique : ∀ ballot value value',
      after.proposed ballot value → after.proposed ballot value' → value = value')
    (hproposed : ∀ ballot value, after.proposed ballot value →
      before.proposed ballot value ∨
        (live ballot ∧ before.SafeAt quorum live ballot value)) :
    after.Sound quorum live where
  proposed_of_voted := hvoted
  proposed_unique := hunique
  live_of_proposed := by
    intro ballot value hnew
    rcases hproposed ballot value hnew with hold | ⟨hlive, _⟩
    · exact hsound.live_of_proposed ballot value hold
    · exact hlive
  safe_of_proposed := by
    intro ballot value hnew
    rcases hproposed ballot value hnew with hold | ⟨_, hsafe⟩
    · exact hextends.safeAt (hsound.safe_of_proposed ballot value hold)
    · exact hextends.safeAt hsafe

/-! ## Where safe proposals come from -/

/-- A quorum that has promised the ballot and voted in no live ballot below
leaves the choice of the value free. -/
theorem safeAt_of_silent {voting : Voting Node Value} {members : Finset Node}
    (hquorum : quorum members) {ballot : ℕ}
    (hsilent : ∀ lower < ballot, live lower → ∀ node ∈ members,
      voting.WontVote node lower) (value : Value) :
    voting.SafeAt quorum live ballot value := by
  intro lower hlt hlive
  exact ⟨members, hquorum, fun node hnode => .inr (hsilent lower hlt hlive node hnode)⟩

/-- Of what a promising quorum has voted, the value of the highest ballot is
safe. -/
theorem safeAt_of_highest {voting : Voting Node Value}
    (hsound : voting.Sound quorum live) {members : Finset Node}
    (hquorum : quorum members) {ballot highest : ℕ} {value : Value}
    (hpromised : ∀ node ∈ members, ballot ≤ voting.promised node)
    (hhighest : ∀ node ∈ members, ∀ lower < ballot, ∀ value',
      voting.voted node lower value' → lower ≤ highest)
    (hproposed : voting.proposed highest value) :
    voting.SafeAt quorum live ballot value := by
  intro lower hlt hlive
  rcases Nat.lt_trichotomy lower highest with hbelow | heq | habove
  · exact hsound.safe_of_proposed highest value hproposed lower hbelow hlive
  · refine ⟨members, hquorum, ?_⟩
    intro node hnode
    by_cases hvote : ∃ value', voting.voted node lower value'
    · obtain ⟨value', hvote⟩ := hvote
      have hsame : value' = value := by
        apply hsound.proposed_unique lower
        · exact hsound.proposed_of_voted node lower value' hvote
        · exact heq ▸ hproposed
      exact .inl (hsame ▸ hvote)
    · refine .inr ⟨lt_of_lt_of_le hlt (hpromised node hnode), ?_⟩
      intro value' hvote'
      exact hvote ⟨value', hvote'⟩
  · refine ⟨members, hquorum, ?_⟩
    intro node hnode
    refine .inr ⟨lt_of_lt_of_le hlt (hpromised node hnode), ?_⟩
    intro value' hvote
    have hle := hhighest node hnode lower hlt value' hvote
    omega

end Voting
