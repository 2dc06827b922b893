import Mathlib.Data.List.Pairwise
import Mathlib.Data.List.DropRight
import Mathlib.Tactic.Common

/-! Contexts of the contextual edit transducer and the window functions that
update them (`context_edit.py`). A context is a triple of windows over the upper
string left of the head, the upper string right of the head, and the lower string
already written. The boundary symbol `#` pads both ends of the upper string. -/

namespace StochasticEdit.Generator

/-- Symbols are the lines of the two symbol files, one character for each byte. -/
abbrev Sym := String

def stopStartChar : Sym := "#"

/-- The loop of `sharp_at_end` with its flag. -/
def sharpAtEndLoop : Bool → List Sym → Bool
  | _, [] => true
  | sharpSeen, i :: t =>
    let sharpSeen := sharpSeen || decide (i = stopStartChar)
    if i ≠ stopStartChar ∧ sharpSeen then false else sharpAtEndLoop sharpSeen t

/-- No other symbol follows a `#`. -/
def sharpAtEnd (t : List Sym) : Bool := sharpAtEndLoop false t

/-- The loop of `sharp_at_beginning` with its flag. -/
def sharpAtBeginningLoop : Bool → List Sym → Bool
  | _, [] => true
  | sharpSeen, i :: t =>
    let sharpSeen := if i ≠ stopStartChar then false else sharpSeen
    if i = stopStartChar ∧ sharpSeen = false then false else sharpAtBeginningLoop sharpSeen t

/-- No `#` follows another symbol. -/
def sharpAtBeginning (t : List Sym) : Bool := sharpAtBeginningLoop true t

def allStopStart : List Sym → Bool
  | [] => true
  | i :: context => if i ≠ stopStartChar then false else allStopStart context

/-- Put `new` in front and keep `limit` symbols. -/
def add (context : List Sym) (new : Sym) (limit : ℕ) : List Sym := (new :: context).take limit

/-- Put `new` at the end and keep the first `limit` symbols. -/
def addReverse (context : List Sym) (new : Sym) (limit : ℕ) : List Sym :=
  (context ++ [new]).take limit

/-- Replace the front symbol by `new` and keep `limit` symbols. -/
def bump (context : List Sym) (new : Sym) (limit : ℕ) : List Sym :=
  (new :: context.drop 1).take limit

/-- Drop the front symbol. -/
def bump2 (context : List Sym) : List Sym := context.drop 1

/-- Upper left, upper right and lower left context. -/
structure Context where
  ulc : List Sym
  urc : List Sym
  llc : List Sym
  deriving DecidableEq, Repr

/-- The three size arguments of the program. -/
structure Sizes where
  ulcMax : ℕ
  urcMax : ℕ
  llcMax : ℕ
  deriving DecidableEq, Repr

/-- The context after inserting `v2`. -/
def insKey (sz : Sizes) (c : Context) (v2 : Sym) : Context :=
  ⟨c.ulc, c.urc, bump c.llc v2 sz.llcMax⟩

/-- The context after substituting `v2` for `u`, the first symbol of `c.urc`. -/
def subKey (sz : Sizes) (c : Context) (u v2 : Sym) : Context :=
  ⟨add (bump2 c.ulc) u sz.ulcMax, bump2 c.urc, bump c.llc v2 sz.llcMax⟩

/-- The context after deleting `u`, the first symbol of `c.urc`. -/
def delKey (sz : Sizes) (c : Context) (u : Sym) : Context :=
  ⟨add c.ulc u sz.ulcMax, bump2 c.urc, c.llc⟩

/-- The context after reading `v1`. -/
def absKey (sz : Sizes) (c : Context) (v1 : Sym) : Context :=
  ⟨c.ulc, addReverse c.urc v1 sz.urcMax, c.llc⟩

/-! ### The two orders of the boundary symbol -/

theorem sharpAtEndLoop_iff (seen : Bool) (t : List Sym) :
    sharpAtEndLoop seen t ↔ (seen → ∀ i ∈ t, i = stopStartChar) ∧
      t.Pairwise fun i j => i = stopStartChar → j = stopStartChar := by
  induction t generalizing seen with
  | nil => simp [sharpAtEndLoop]
  | cons i t ih =>
    by_cases hi : i = stopStartChar
    · simp only [sharpAtEndLoop, hi, decide_true, Bool.or_true, ne_eq, not_true_eq_false, false_and,
        if_false, ih, List.pairwise_cons, List.mem_cons, forall_eq_or_imp, true_and, true_implies]
      tauto
    · simp only [sharpAtEndLoop, hi, decide_false, Bool.or_false, ne_eq,
        not_false_eq_true, true_and,
        List.pairwise_cons, List.mem_cons, forall_eq_or_imp, false_and, false_implies, implies_true]
      cases seen <;> simp [ih]

theorem sharpAtEnd_iff (t : List Sym) :
    sharpAtEnd t ↔ t.Pairwise fun i j => i = stopStartChar → j = stopStartChar := by
  simp [sharpAtEnd, sharpAtEndLoop_iff]

theorem sharpAtBeginningLoop_iff (seen : Bool) (t : List Sym) :
    sharpAtBeginningLoop seen t ↔ (seen = false → ∀ i ∈ t, i ≠ stopStartChar) ∧
      t.Pairwise fun i j => j = stopStartChar → i = stopStartChar := by
  induction t generalizing seen with
  | nil => simp [sharpAtBeginningLoop]
  | cons i t ih =>
    by_cases hi : i = stopStartChar
    · simp only [sharpAtBeginningLoop, hi, ne_eq, not_true_eq_false, if_false, true_and,
        List.pairwise_cons, List.mem_cons, forall_eq_or_imp, implies_true, false_and]
      cases seen <;> simp [ih]
    · simp only [sharpAtBeginningLoop, hi, ne_eq, not_false_eq_true, if_true, false_and,
        if_false, ih, List.pairwise_cons, List.mem_cons, forall_eq_or_imp, true_and, true_implies]
      tauto

theorem sharpAtBeginning_iff (t : List Sym) :
    sharpAtBeginning t ↔ t.Pairwise fun i j => j = stopStartChar → i = stopStartChar := by
  simp [sharpAtBeginning, sharpAtBeginningLoop_iff]

theorem sharpAtBeginning_of_length_le_one {t : List Sym} (h : t.length ≤ 1) :
    sharpAtBeginning t := by
  rw [sharpAtBeginning_iff]
  match t, h with
  | [], _ => simp
  | [_], _ => simp

theorem allStopStart_iff (t : List Sym) : allStopStart t ↔ ∀ i ∈ t, i = stopStartChar := by
  induction t with
  | nil => simp [allStopStart]
  | cons i t ih => by_cases hi : i = stopStartChar <;> simp [allStopStart, hi, ih]

/-! ### Window lengths -/

theorem length_add {context : List Sym} {limit : ℕ} (h : context.length = limit) (new : Sym) :
    (add context new limit).length = limit := by
  simp [add, h]

theorem length_bump {context : List Sym} {limit : ℕ} (h : context.length = limit) (new : Sym) :
    (bump context new limit).length = limit := by
  simp only [bump, List.length_take, List.length_cons, List.length_drop]
  omega

theorem length_add_bump2 {context : List Sym} {limit : ℕ} (h : context.length = limit) (new : Sym) :
    (add (bump2 context) new limit).length = limit := length_bump h new

theorem addReverse_of_lt {context : List Sym} {limit : ℕ} (h : context.length < limit) (new : Sym) :
    addReverse context new limit = context ++ [new] := by
  rw [addReverse, List.take_of_length_le (by simp; omega)]

end StochasticEdit.Generator
