import Intake.Fault
/-!
# The causes of a fault

What made a fault is told in three places: `root` goes down to the last cause, `chain` lists all of them, and
`message` puts their sentences together. Each goes through the kinds of faults by itself, so each could lose sight of
a cause that the others see. What they ought to agree on is `source?`, the one fault that a fault names as its source.

For each of them it is said what it does with a fault that names a source and with one that names none; nothing after
that looks at the kinds of faults again. `source_induction` goes down from source to source, and `follow` is how one
gets there step by step. The main statement is `cause_views_agree`.
-/

namespace Intake.Fault

/-- What holds of a fault without a source, and of a fault when it holds of its source, holds of all faults. -/
@[elab_as_elim]
theorem source_induction {motive : Fault → Prop} (last : ∀ e, e.source? = none → motive e)
    (step : ∀ e source, e.source? = some source → motive source → motive e) : ∀ e, motive e
  | reported _ => last _ rfl
  | noFactory _ => last _ rfl
  | untracked _ => last _ rfl
  | creation _ _ source => step _ source rfl (source_induction last step source)
  | partition _ _ _ source => step _ source rfl (source_induction last step source)
  | partitionHalted _ _ _ cause => step _ cause rfl (source_induction last step cause)
  | feedHalted _ cause => step _ cause rfl (source_induction last step cause)
  | crashed _ _ => last _ rfl
  | cancelled => last _ rfl
  | several first _ => step _ first rfl (source_induction last step first)

/-- The fault that is reached when one goes from source to source some number of times. -/
def follow (e : Fault) : Nat → Option Fault
  | 0 => some e
  | n + 1 => (e.follow n).bind source?

section
variable {e source : Fault}

/-! ### Faults with and without a source -/

/-- A fault that names no source has no causes. -/
theorem chain_of_none (h : e.source? = none) : e.chain = [] := by
  cases e <;> cases h <;> rfl

/-- The causes of a fault are its source and the causes of that. -/
theorem chain_of_some (h : e.source? = some source) : e.chain = source :: source.chain := by
  cases e <;> cases h <;> rfl

/-- A fault that names no source is the root of all. -/
theorem root_of_none (h : e.source? = none) : e.root = e := by
  cases e <;> cases h <;> rfl

/-- A fault has the root of its source. -/
theorem root_of_some (h : e.source? = some source) : e.root = source.root := by
  cases e <;> cases h <;> rfl

/-- Nothing is said after a fault that names no source. -/
theorem trail_of_none (h : e.source? = none) : e.trail = "" := by
  cases e <;> cases h <;> rfl

/-- After a fault its source is told, and then what is said after that. -/
theorem trail_of_some (h : e.source? = some source) : e.trail = ": " ++ source.describe ++ source.trail := by
  cases e <;> cases h <;> rfl

/-! ### Going down -/

/-- The first step may as well be made first. -/
theorem follow_succ (h : e.source? = some source) (n : Nat) : e.follow (n + 1) = source.follow n := by
  induction n with
  | zero => exact h
  | succ n ih => rw [follow, ih, follow]

/-- From a fault that names no source nothing is reached. -/
theorem follow_succ_of_none (h : e.source? = none) (n : Nat) : e.follow (n + 1) = none := by
  induction n with
  | zero => exact h
  | succ n ih => rw [follow, ih, Option.bind_none]

/-- The chain has what is reached after one step, after two, and so on, and it ends where no source is named. -/
theorem getElem?_chain (e : Fault) (n : Nat) : e.chain[n]? = e.follow (n + 1) := by
  induction e using source_induction generalizing n with
  | last e h => rw [chain_of_none h, follow_succ_of_none h, List.getElem?_nil]
  | step e source h ih =>
    rw [chain_of_some h, follow_succ h]
    cases n with
    | zero => rfl
    | succ n => rw [List.getElem?_cons_succ, ih]

/-- At the root no source is named. -/
theorem source?_root (e : Fault) : e.root.source? = none := by
  induction e using source_induction with
  | last e h => rw [root_of_none h, h]
  | step e source h ih => rw [root_of_some h, ih]

/-- The root is the last of the causes, or the fault itself if there are none. -/
theorem root_eq_getLast (e : Fault) : e.root = e.chain.getLast?.getD e := by
  induction e using source_induction with
  | last e h => rw [root_of_none h, chain_of_none h, List.getLast?_nil, Option.getD_none]
  | step e source h ih => rw [root_of_some h, chain_of_some h, ih, List.getLast?_cons, Option.getD_some]

/-- What is said after a fault are the sentences of its causes, in order. -/
theorem trail_eq_join (e : Fault) : e.trail = String.join (e.chain.map fun cause => ": " ++ cause.describe) := by
  induction e using source_induction with
  | last e h => rw [trail_of_none h, chain_of_none h, List.map_nil, String.join_nil]
  | step e source h ih => rw [trail_of_some h, chain_of_some h, ih, List.map_cons, String.join_cons]

/-- Putting faults together keeps the first one in front. -/
theorem root_aggregate? (first : Fault) (others : List Fault) :
    (aggregate? (first :: others)).map root = some first.root := by
  cases others <;> rfl

end

/-- The views of the causes of a fault agree. The chain is what is found by going from source to source, and comes to
an end; the root is its last fault, or the fault itself if there is none, and has no cause in turn; the message is the
sentence of the fault and then those of the chain, in order and each after a colon. Of faults that are put together
the first one gives the root. -/
theorem cause_views_agree (e : Fault) :
    (∀ n, e.follow (n + 1) = e.chain[n]?) ∧
    e.root = e.chain.getLast?.getD e ∧
    e.root.root = e.root ∧
    e.message = e.describe ++ String.join (e.chain.map fun cause => ": " ++ cause.describe) ∧
    ∀ others, ∃ whole, aggregate? (e :: others) = some whole ∧ whole.root = e.root := by
  refine ⟨fun n => (getElem?_chain e n).symm, root_eq_getLast e, root_of_none (source?_root e), ?_, ?_⟩
  · rw [message, trail_eq_join]
  · intro others
    exact Option.map_eq_some_iff.mp (root_aggregate? e others)

end Intake.Fault
