import Mathlib.Data.Finset.Card
import Mathlib.Data.Multiset.Filter
import Mathlib.Tactic

/-!
# Rounds of a lone proposer

A proposer asks nodes to promise a ballot and, in the same ballot, to accept a
value; these two rounds follow each other, and a restart begins with a higher
ballot.  Letters in flight are lost or delivered once, in any order.  A node
grants a promise above all it has promised and an acceptance that is not below.

As long as no other proposer asks, everything that was promised before is at
most a bound.  Once the ballot exceeds the bound, all answers to the current
round are positive, and each of them is from a node that has not answered yet.
-/

namespace LoneProposer

/-- A request to a node, or the answer of the node. -/
structure Letter (Node : Type*) where
  accepts : Bool
  ballot : ℕ
  node : Node
  answer : Option Bool := none

/-- The position of a round: promises of a ballot, then acceptances in it. -/
def round (accepts : Bool) (ballot : ℕ) : ℕ := 2 * ballot + accepts.toNat

theorem round_inj {accepts accepts' : Bool} {ballot ballot' : ℕ} :
    round accepts ballot = round accepts' ballot' ↔ accepts = accepts' ∧ ballot = ballot' := by
  cases accepts <;> cases accepts' <;> simp [round] <;> omega

theorem round_lt {ballot ballot' : ℕ} (hlt : ballot < ballot') (accepts accepts' : Bool) :
    round accepts ballot < round accepts' ballot' := by
  cases accepts <;> cases accepts' <;> simp [round] <;> omega

theorem ballot_le {accepts accepts' : Bool} {ballot ballot' : ℕ}
    (hle : round accepts ballot ≤ round accepts' ballot') : ballot ≤ ballot' := by
  by_contra hlt
  have hround := round_lt (Nat.lt_of_not_le hlt) accepts' accepts
  omega

variable {Node : Type*}

def Letter.round (letter : Letter Node) : ℕ := LoneProposer.round letter.accepts letter.ballot

/-- What a node with the given promise answers. -/
def Letter.granted (letter : Letter Node) (promised : ℕ) : Bool :=
  if letter.accepts then promised ≤ letter.ballot else promised < letter.ballot

def request (accepts : Bool) (ballot : ℕ) (node : Node) : Letter Node := { accepts, ballot, node }

/-- The proposer in its current round, the letters in flight, what every node
has promised, and the answers to the current round that the proposer has. -/
structure State (Node : Type*) where
  accepting : Bool
  ballot : ℕ
  letters : Multiset (Letter Node)
  promised : Node → ℕ
  acks : Multiset (Node × Bool)

namespace State

def round (state : State Node) : ℕ := LoneProposer.round state.accepting state.ballot

def answer [DecidableEq Node] (state : State Node) (letter : Letter Node)
    (rest : Multiset (Letter Node)) : State Node :=
  let reply := letter.granted (state.promised letter.node)
  { state with
    letters := { letter with answer := some reply } ::ₘ rest
    promised := Function.update state.promised letter.node
      (if reply then letter.ballot else state.promised letter.node) }

def ask (state : State Node) (accepting : Bool) (ballot : ℕ) (nodes : List Node) : State Node :=
  { state with
    accepting
    ballot
    letters := state.letters + Multiset.ofList (nodes.map (request accepting ballot))
    acks := 0 }

/-- The nodes that have a letter of the current round to handle, have sent an
answer to it, or have their answer recorded. -/
def places (state : State Node) : Multiset Node :=
  (state.letters.filter fun letter => letter.round = state.round).map Letter.node +
    state.acks.map Prod.fst

end State

inductive Step [DecidableEq Node] (state : State Node) : State Node → Prop where
  | lose {letter : Letter Node} {rest : Multiset (Letter Node)}
      (hletters : state.letters = letter ::ₘ rest) : Step state { state with letters := rest }
  | answer {letter : Letter Node} {rest : Multiset (Letter Node)}
      (hletters : state.letters = letter ::ₘ rest) (hrequest : letter.answer = none) :
      Step state (state.answer letter rest)
  | record {letter : Letter Node} {rest : Multiset (Letter Node)} {reply : Bool}
      (hletters : state.letters = letter ::ₘ rest) (hreply : letter.answer = some reply)
      (hround : letter.round = state.round) :
      Step state
        { state with letters := rest, acks := (letter.node, reply) ::ₘ state.acks }
  | ask {accepting : Bool} {ballot : ℕ} {nodes : List Node}
      (hlater : state.round < LoneProposer.round accepting ballot) (hnodes : nodes.Nodup)
      (hphase : accepting = true → ballot = state.ballot) :
      Step state (state.ask accepting ballot nodes)

/-- The part of the invariant that holds above the bound. -/
structure Unopposed (state : State Node) : Prop where
  unasked : state.accepting = false → ∀ letter ∈ state.letters, letter.round = state.round →
    letter.answer = none → state.promised letter.node < state.ballot
  positive : ∀ letter ∈ state.letters, letter.round = state.round → letter.answer ≠ some false
  recorded : ∀ ack ∈ state.acks, ack.2 = true

structure Sound (bound : ℕ) (state : State Node) : Prop where
  round_le : ∀ letter ∈ state.letters, letter.round ≤ state.round
  promised_le : ∀ node, state.promised node ≤ max bound state.ballot
  distinct : state.places.Nodup
  unopposed : bound < state.ballot → Unopposed state

variable {bound : ℕ} {state next : State Node} {letter : Letter Node}
  {rest : Multiset (Letter Node)}

theorem places_cons_of_round (hletters : state.letters = letter ::ₘ rest)
    (hround : letter.round = state.round) :
    state.places = letter.node ::ₘ ({ state with letters := rest } : State Node).places := by
  simp only [State.places, State.round, hletters] at hround ⊢
  rw [Multiset.filter_cons_of_pos rest hround, Multiset.map_cons, Multiset.cons_add]
  rfl

theorem places_cons_of_ne (hletters : state.letters = letter ::ₘ rest)
    (hround : letter.round ≠ state.round) :
    state.places = ({ state with letters := rest } : State Node).places := by
  simp only [State.places, State.round, hletters] at hround ⊢
  rw [Multiset.filter_cons_of_neg rest hround]
  rfl

theorem Sound.unrecorded (hsound : Sound bound state) (hletter : letter ∈ state.letters)
    (hround : letter.round = state.round) : letter.node ∉ state.acks.map Prod.fst := by
  rcases Multiset.exists_cons_of_mem hletter with ⟨rest, hletters⟩
  have hdistinct := hsound.distinct
  rw [places_cons_of_round hletters hround, Multiset.nodup_cons] at hdistinct
  intro hmem
  exact hdistinct.1 (Multiset.mem_add.mpr (.inr hmem))

theorem Sound.node_ne {other : Letter Node} (hsound : Sound bound state)
    (hletters : state.letters = letter ::ₘ rest) (hround : letter.round = state.round)
    (hother : other ∈ rest) (hround' : other.round = state.round) : other.node ≠ letter.node := by
  intro heq
  have hdistinct := hsound.distinct
  rw [places_cons_of_round hletters hround, Multiset.nodup_cons] at hdistinct
  apply hdistinct.1
  rw [← heq]
  have hfound : other ∈ rest.filter fun letter => letter.round = state.round :=
    Multiset.mem_filter.mpr ⟨hother, hround'⟩
  exact Multiset.mem_add.mpr (.inl (Multiset.mem_map_of_mem Letter.node hfound))

theorem Sound.lose (hsound : Sound bound state) (hletters : state.letters = letter ::ₘ rest) :
    Sound bound { state with letters := rest } := by
  have hold : ∀ other ∈ rest, other ∈ state.letters := by
    intro other hmem
    rw [hletters]
    exact Multiset.mem_cons_of_mem hmem
  constructor
  · exact fun other hmem => hsound.round_le other (hold other hmem)
  · exact hsound.promised_le
  · have hdistinct := hsound.distinct
    by_cases hround : letter.round = state.round
    · rw [places_cons_of_round hletters hround] at hdistinct
      exact (Multiset.nodup_cons.mp hdistinct).2
    · rwa [places_cons_of_ne hletters hround] at hdistinct
  · intro habove
    have hunopposed := hsound.unopposed habove
    constructor
    · exact fun hphase other hmem => hunopposed.unasked hphase other (hold other hmem)
    · exact fun other hmem => hunopposed.positive other (hold other hmem)
    · exact hunopposed.recorded

/-- Above the bound a node grants what the current round asks for. -/
theorem Sound.granted (hsound : Sound bound state) (habove : bound < state.ballot)
    (hletter : letter ∈ state.letters) (hround : letter.round = state.round)
    (hrequest : letter.answer = none) : letter.granted (state.promised letter.node) = true := by
  rcases round_inj.mp hround with ⟨haccepts, hballot⟩
  unfold Letter.granted
  cases hphase : state.accepting with
  | false =>
      have hlt := (hsound.unopposed habove).unasked hphase letter hletter hround hrequest
      simp [haccepts, hphase, hballot, hlt]
  | true =>
      have hle := hsound.promised_le letter.node
      rw [max_eq_right habove.le] at hle
      simp [haccepts, hphase, hballot, hle]

theorem Sound.answer [DecidableEq Node] (hsound : Sound bound state)
    (hletters : state.letters = letter ::ₘ rest) (hrequest : letter.answer = none) :
    Sound bound (state.answer letter rest) := by
  have hmem : letter ∈ state.letters := by
    rw [hletters]
    exact Multiset.mem_cons_self letter rest
  have hold : ∀ other ∈ rest, other ∈ state.letters := by
    intro other hother
    rw [hletters]
    exact Multiset.mem_cons_of_mem hother
  have hballot : letter.ballot ≤ state.ballot := ballot_le (hsound.round_le letter hmem)
  constructor
  · intro other hother
    rcases Multiset.mem_cons.mp hother with rfl | hother
    · exact hsound.round_le letter hmem
    · exact hsound.round_le other (hold other hother)
  · intro node
    by_cases heq : node = letter.node
    · subst heq
      simp only [State.answer, Function.update_self]
      split
      · exact hballot.trans (le_max_right bound state.ballot)
      · exact hsound.promised_le letter.node
    · simp only [State.answer, Function.update_of_ne heq]
      exact hsound.promised_le node
  · have hdistinct := hsound.distinct
    by_cases hround : letter.round = state.round
    · rw [places_cons_of_round hletters hround] at hdistinct
      have hplaces : (state.answer letter rest).places = _ := places_cons_of_round rfl hround
      rw [hplaces]
      exact hdistinct
    · rw [places_cons_of_ne hletters hround] at hdistinct
      have hplaces : (state.answer letter rest).places = _ := places_cons_of_ne rfl hround
      rw [hplaces]
      exact hdistinct
  · intro habove
    have hunopposed := hsound.unopposed habove
    constructor
    · intro hphase other hother hround hnone
      change state.accepting = false at hphase
      change other.round = state.round at hround
      rcases Multiset.mem_cons.mp hother with rfl | hother
      · simp at hnone
      have hlt := hunopposed.unasked hphase other (hold other hother) hround hnone
      by_cases heq : other.node = letter.node
      · have hbelow : letter.ballot < state.ballot := by
          apply lt_of_le_of_ne hballot
          intro hsame
          have hle := hsound.round_le letter hmem
          have hcurrent : letter.round = state.round := by
            apply round_inj.mpr
            cases haccepts : letter.accepts with
            | false => exact ⟨hphase.symm, hsame⟩
            | true =>
                simp [Letter.round, State.round, LoneProposer.round, hsame, haccepts,
                  hphase] at hle
          exact hsound.node_ne hletters hcurrent hother hround heq
        rw [heq] at hlt ⊢
        simp only [State.answer, Function.update_self]
        split
        · exact hbelow
        · exact hlt
      · simp only [State.answer, Function.update_of_ne heq]
        exact hlt
    · intro other hother hround
      rcases Multiset.mem_cons.mp hother with rfl | hother
      · have hgranted := hsound.granted habove hmem hround hrequest
        simp [hgranted]
      · exact hunopposed.positive other (hold other hother) hround
    · exact hunopposed.recorded

theorem Sound.record {reply : Bool} (hsound : Sound bound state)
    (hletters : state.letters = letter ::ₘ rest) (hreply : letter.answer = some reply)
    (hround : letter.round = state.round) :
    Sound bound
      { state with letters := rest, acks := (letter.node, reply) ::ₘ state.acks } := by
  have hlost := hsound.lose hletters
  have hmem : letter ∈ state.letters := by
    rw [hletters]
    exact Multiset.mem_cons_self letter rest
  constructor
  · exact hlost.round_le
  · exact hlost.promised_le
  · have hdistinct := hsound.distinct
    rw [places_cons_of_round hletters hround] at hdistinct
    unfold State.places at hdistinct ⊢
    rw [Multiset.map_cons, Multiset.add_cons]
    exact hdistinct
  · intro habove
    have hunopposed := hlost.unopposed habove
    constructor
    · exact hunopposed.unasked
    · exact hunopposed.positive
    · intro ack hack
      rcases Multiset.mem_cons.mp hack with rfl | hack
      · have hpositive := (hsound.unopposed habove).positive letter hmem hround
        rw [hreply] at hpositive
        simpa using hpositive
      · exact hunopposed.recorded ack hack

theorem Sound.ask {accepting : Bool} {ballot : ℕ} {nodes : List Node}
    (hlater : ∀ letter ∈ state.letters, letter.round < LoneProposer.round accepting ballot)
    (hpromised : ∀ node, state.promised node ≤ bound ∨ state.promised node < ballot ∨
      accepting = true ∧ state.promised node ≤ ballot)
    (hnodes : nodes.Nodup) : Sound bound (state.ask accepting ballot nodes) := by
  have hnew : ∀ letter ∈ (state.ask accepting ballot nodes).letters,
      letter.round = LoneProposer.round accepting ballot →
        ∃ node, letter = request accepting ballot node := by
    intro letter hmem hround
    rcases Multiset.mem_add.mp hmem with hold | hnew
    · exact absurd hround (hlater letter hold).ne
    · rcases List.mem_map.mp (Multiset.mem_coe.mp hnew) with ⟨node, _, rfl⟩
      exact ⟨node, rfl⟩
  constructor
  · intro letter hmem
    rcases Multiset.mem_add.mp hmem with hold | hnew
    · exact (hlater letter hold).le
    · rcases List.mem_map.mp (Multiset.mem_coe.mp hnew) with ⟨node, _, rfl⟩
      exact le_rfl
  · intro node
    rcases hpromised node with hle | hlt | ⟨_, hle⟩
    · exact hle.trans (le_max_left bound ballot)
    · exact hlt.le.trans (le_max_right bound ballot)
    · exact hle.trans (le_max_right bound ballot)
  · have hplaces : (state.ask accepting ballot nodes).places = Multiset.ofList nodes := by
      have hnone : state.letters.filter
          (fun letter => letter.round = LoneProposer.round accepting ballot) = 0 :=
        Multiset.filter_eq_nil.mpr fun letter hmem => (hlater letter hmem).ne
      have hall : (Multiset.ofList (nodes.map (request accepting ballot))).filter
          (fun letter => letter.round = LoneProposer.round accepting ballot) =
            Multiset.ofList (nodes.map (request accepting ballot)) := by
        apply Multiset.filter_eq_self.mpr
        intro letter hmem
        rcases List.mem_map.mp (Multiset.mem_coe.mp hmem) with ⟨node, _, rfl⟩
        rfl
      change ((state.letters + Multiset.ofList (nodes.map (request accepting ballot))).filter
        fun letter => letter.round = LoneProposer.round accepting ballot).map Letter.node + 0 =
          Multiset.ofList nodes
      rw [Multiset.filter_add, hnone, hall, zero_add, add_zero, Multiset.map_coe, List.map_map]
      exact congrArg Multiset.ofList (List.map_id nodes)
    rw [hplaces]
    exact Multiset.coe_nodup.mpr hnodes
  · intro habove
    constructor
    · intro hphase letter hmem hround hnone
      change accepting = false at hphase
      rcases hpromised letter.node with hle | hlt | ⟨htrue, _⟩
      · exact lt_of_le_of_lt hle habove
      · exact hlt
      · simp [hphase] at htrue
    · intro letter hmem hround
      rcases hnew letter hmem hround with ⟨node, rfl⟩
      simp [request]
    · intro ack hack
      exact absurd hack (Multiset.notMem_zero ack)

theorem Sound.step [DecidableEq Node] (hsound : Sound bound state) (hstep : Step state next) :
    Sound bound next := by
  cases hstep with
  | lose hletters => exact hsound.lose hletters
  | answer hletters hrequest => exact hsound.answer hletters hrequest
  | record hletters hreply hround => exact hsound.record hletters hreply hround
  | @ask accepting ballot nodes hlater hnodes hphase =>
      apply Sound.ask _ _ hnodes
      · exact fun letter hmem => lt_of_le_of_lt (hsound.round_le letter hmem) hlater
      · intro node
        have hle := hsound.promised_le node
        rcases le_max_iff.mp hle with hbound | hballot
        · exact .inl hbound
        · cases accepting with
          | true =>
              rw [← hphase rfl] at hballot
              exact .inr (.inr ⟨rfl, hballot⟩)
          | false =>
              have hstate := ballot_le hlater.le
              have hne : state.ballot ≠ ballot := by
                rintro rfl
                cases hphase : state.accepting <;>
                  simp [State.round, LoneProposer.round, hphase] at hlater
              exact .inr (.inl (lt_of_le_of_lt hballot (lt_of_le_of_ne hstate hne)))

end LoneProposer
