import Mathlib.Data.List.Basic

/-! What a call of a program comes to. Besides returning a value a call can leave the program
through an error exit, or run into undefined behaviour. A sequence of calls ends with the
first of them that does not return. -/

namespace StochasticEdit.Program

inductive Outcome (α : Type) where
  | value (a : α)
  | exit
  | undefined
  deriving DecidableEq

namespace Outcome

variable {R α β : Type}

def bind : Outcome α → (α → Outcome β) → Outcome β
  | .value a, k => k a
  | .exit, _ => .exit
  | .undefined, _ => .undefined

instance : Monad Outcome where
  pure := .value
  bind := bind

@[simp] theorem pure_eq (a : α) : (pure a : Outcome α) = .value a := rfl
@[simp] theorem value_bind (a : α) (k : α → Outcome β) : (Outcome.value a >>= k) = k a := rfl
@[simp] theorem exit_bind (k : α → Outcome β) : (Outcome.exit >>= k) = .exit := rfl
@[simp] theorem undefined_bind (k : α → Outcome β) : (Outcome.undefined >>= k) = .undefined := rfl

instance : LawfulMonad Outcome := LawfulMonad.mk' Outcome
  (fun x => by cases x <;> rfl)
  (fun _ _ => rfl)
  (fun x _ _ => by cases x <;> rfl)

/-- A loop that runs out of its range without a result. -/
def orUndefined : Option α → Outcome α
  | some a => .value a
  | none => .undefined

/-- What should have a value, or else be reported. -/
def orExit : Option α → Outcome α
  | some a => .value a
  | none => .exit

/-- The end of a call that does not return, as the end of another one. -/
def halt : Outcome α → Outcome β
  | .exit => .exit
  | _ => .undefined

theorem halt_bind {γ : Type} (x : Outcome α) (k : β → Outcome γ) :
    ((halt x : Outcome β) >>= k) = halt x := by
  cases x <;> rfl

theorem halt_bind_of_stops {x : Outcome α} (h : x = halt x) (k : α → Outcome β) :
    (x >>= k) = halt x := by
  cases x with
  | value a => exact absurd h (by simp [halt])
  | exit => rfl
  | undefined => rfl

theorem halt_eq_exit_iff {x : Outcome α} : (halt x : Outcome β) = .exit ↔ x = .exit := by
  cases x <;> simp [halt]

/-! ### Sequences of calls -/

/-- Calls that return exactly where they should have a value. -/
structure Returns (f : R → Outcome α) (g : R → Option α) : Prop where
  value : ∀ r a, g r = some a → ∃ b, f r = .value b
  stops : ∀ r, g r = none → f r = halt (f r)

variable {f : R → Outcome α} {g : R → Option α}

/-- If every call returns, the sequence returns what they return. -/
theorem Returns.mapM_value (h : Returns f g) {rs : List R} (hrs : ∀ r ∈ rs, (g r).isSome) :
    ∃ bs as, rs.mapM f = .value bs ∧ rs.mapM g = some as ∧
      (bs = as ↔ ∀ r ∈ rs, f r = orExit (g r)) := by
  induction rs with
  | nil => exact ⟨[], [], rfl, rfl, by simp⟩
  | cons r rs ih =>
    obtain ⟨hr, hrest⟩ := List.forall_mem_cons.mp hrs
    obtain ⟨a, ha⟩ := Option.isSome_iff_exists.mp hr
    obtain ⟨b, hb⟩ := h.value r a ha
    obtain ⟨bs, as, hf, hg, hiff⟩ := ih hrest
    refine ⟨b :: bs, a :: as, ?_, ?_, ?_⟩
    · rw [List.mapM_cons, hb, hf]
      rfl
    · rw [List.mapM_cons, ha, hg]
      rfl
    · rw [List.cons.injEq, hiff, List.forall_mem_cons, hb, ha, orExit, value.injEq]

/-- Otherwise it ends as the first call that does not return. -/
theorem Returns.mapM_halt (h : Returns f g) {rs : List R} {r : R}
    (hr : rs.find? (fun r => (g r).isNone) = some r) :
    rs.mapM f = halt (f r) ∧ rs.mapM g = none ∧ g r = none := by
  induction rs with
  | nil => exact absurd hr (by simp)
  | cons r' rs ih =>
    rw [List.mapM_cons, List.mapM_cons]
    cases hg : g r' with
    | none =>
      obtain rfl : r' = r := by simpa [List.find?_cons, hg] using hr
      exact ⟨halt_bind_of_stops (h.stops r' hg) _, rfl, hg⟩
    | some a =>
      obtain ⟨b, hb⟩ := h.value r' a hg
      obtain ⟨hf, hnone, hgr⟩ := ih (by simpa [List.find?_cons, hg] using hr)
      rw [hb, hf, hnone]
      exact ⟨halt_bind _ _, rfl, hgr⟩

/-- Two sequences of calls, one after the other, give what they should exactly if all calls
do where all should return, and else if the first that should not is reported. -/
theorem Returns.both_iff (h : Returns f g) (rs rs' : List R) :
    (do
      let bs ← rs.mapM f
      let bs' ← rs'.mapM f
      return (bs, bs')) = orExit (do
        let as ← rs.mapM g
        let as' ← rs'.mapM g
        return (as, as')) ↔
      match (rs ++ rs').find? (fun r => (g r).isNone) with
      | none => ∀ r ∈ rs ++ rs', f r = orExit (g r)
      | some r => f r = orExit (g r) := by
  have hsome {l : List R} (hl : l.find? (fun r => (g r).isNone) = none) : ∀ r ∈ l,
      (g r).isSome := by
    simpa [Option.isSome_iff_ne_none] using hl
  rw [List.find?_append]
  cases hrs : rs.find? (fun r => (g r).isNone) with
  | some r =>
    obtain ⟨hf, hg, hr⟩ := h.mapM_halt hrs
    rw [hf, hg, halt_bind]
    show halt (f r) = Outcome.exit ↔ f r = orExit (g r)
    rw [halt_eq_exit_iff, hr, orExit]
  | none =>
    obtain ⟨bs, as, hf, hg, hiff⟩ := h.mapM_value (hsome hrs)
    rw [hf, hg, Option.none_or]
    cases hrs' : rs'.find? (fun r => (g r).isNone) with
    | some r =>
      obtain ⟨hf', hg', hr⟩ := h.mapM_halt hrs'
      rw [hf', hg', value_bind, halt_bind]
      show halt (f r) = Outcome.exit ↔ f r = orExit (g r)
      rw [halt_eq_exit_iff, hr, orExit]
    | none =>
      obtain ⟨bs', as', hf', hg', hiff'⟩ := h.mapM_value (hsome hrs')
      rw [hf', hg']
      show Outcome.value (bs, bs') = .value (as, as') ↔ ∀ r ∈ rs ++ rs', f r = orExit (g r)
      rw [value.injEq, Prod.mk.injEq, hiff, hiff', List.forall_mem_append]

end Outcome

end StochasticEdit.Program
