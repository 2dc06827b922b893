import StochasticEdit.Generator.Windows
import Mathlib.Logic.Function.Iterate

/-! The left contexts as windows over the history of edits. The upper left context
is stored newest first and DEL shifts it; SUB and the lower left context instead
overwrite the newest symbol, so a window of two or more symbols keeps its oldest
symbols forever. -/

namespace StochasticEdit.Generator

/-- One pass through the INS, SUB or DEL branch; `u` is the consumed symbol. -/
inductive WindowEdit
  | ins (v2 : Sym)
  | sub (u v2 : Sym)
  | del (u : Sym)

def WindowEdit.apply (sz : Sizes) (c : Context) : WindowEdit → Context
  | .ins v2 => insKey sz c v2
  | .sub u v2 => subKey sz c u v2
  | .del u => delKey sz c u

def runEdits (sz : Sizes) (c : Context) (es : List WindowEdit) : Context :=
  es.foldl (WindowEdit.apply sz) c

def WindowEdit.written? : WindowEdit → Option Sym
  | .ins v2 => some v2
  | .sub _ v2 => some v2
  | .del _ => none

def WindowEdit.consumed? : WindowEdit → Option Sym
  | .ins _ => none
  | .sub u _ => some u
  | .del u => some u

def written (es : List WindowEdit) : List Sym := es.filterMap WindowEdit.written?

def consumed (es : List WindowEdit) : List Sym := es.filterMap WindowEdit.consumed?

/-- Both left contexts have their maximal length. -/
def Context.FullLeft (sz : Sizes) (c : Context) : Prop :=
  c.ulc.length = sz.ulcMax ∧ c.llc.length = sz.llcMax

/-- Each left context consists of the last symbols of its history, in any order. -/
def HistoryWindows (sz : Sizes) (c : Context) (es : List WindowEdit) : Prop :=
  (sz.llcMax ≤ (written es).length → (runEdits sz c es).llc.Perm ((written es).rtake sz.llcMax)) ∧
  (sz.ulcMax ≤ (consumed es).length → (runEdits sz c es).ulc.Perm ((consumed es).rtake sz.ulcMax))

/-- SUB and DEL shift the upper left context alike. -/
def SameShift (sz : Sizes) (c : Context) : Prop :=
  ∀ u v2, (subKey sz c u v2).ulc = (delKey sz c u).ulc

/-- An edit whose branch shifts the windows it touches: it writes only to a lower
window of at most one symbol, and it is a SUB only with such an upper window. -/
def WindowEdit.Shifts (sz : Sizes) (e : WindowEdit) : Prop :=
  (e.written? ≠ none → sz.llcMax ≤ 1) ∧ (e.written? ≠ none → e.consumed? ≠ none → sz.ulcMax ≤ 1)

theorem bump_of_le_one {limit : ℕ} (h : limit ≤ 1) (context : List Sym) (new : Sym) :
    bump context new limit = add context new limit := by
  obtain rfl | rfl : limit = 0 ∨ limit = 1 := by omega
  all_goals simp [bump, add]

theorem runEdits_cons (sz : Sizes) (c : Context) (e : WindowEdit) (es : List WindowEdit) :
    runEdits sz c (e :: es) = runEdits sz (e.apply sz c) es := rfl

/-- Pushing the history newest first onto a window of fixed size. -/
theorem take_reverse_append_take (xs : List Sym) (x : Sym) (l : List Sym) (m : ℕ) :
    (xs.reverse ++ (x :: l).take m).take m = ((x :: xs).reverse ++ l).take m := by
  rw [List.reverse_cons, List.append_assoc, List.singleton_append, List.take_append,
    List.take_append, List.take_take, min_eq_left (by omega)]

/-- A step that shifts pushes the written symbol onto the lower window. -/
theorem apply_llc {sz : Sizes} {e : WindowEdit} (he : e.Shifts sz) (c : Context) :
    (e.apply sz c).llc = e.written?.elim c.llc fun v => add c.llc v sz.llcMax := by
  cases e with
  | ins v => exact bump_of_le_one (he.1 (by simp [WindowEdit.written?])) _ _
  | sub u v => exact bump_of_le_one (he.1 (by simp [WindowEdit.written?])) _ _
  | del u => rfl

/-- A step that shifts pushes the consumed symbol onto the upper window. -/
theorem apply_ulc {sz : Sizes} {e : WindowEdit} (he : e.Shifts sz) (c : Context) :
    (e.apply sz c).ulc = e.consumed?.elim c.ulc fun u => add c.ulc u sz.ulcMax := by
  cases e with
  | ins v => rfl
  | sub u v =>
    exact bump_of_le_one (he.2 (by simp [WindowEdit.written?]) (by simp [WindowEdit.consumed?])) _ _
  | del u => rfl

/-- A window onto which every step pushes what it enters shows what was entered last. -/
theorem runEdits_window {sz : Sizes} (proj : Context → List Sym) (enters? : WindowEdit → Option Sym)
    (m : ℕ) {es : List WindowEdit}
    (h : ∀ e ∈ es, ∀ c, proj (e.apply sz c) = (enters? e).elim (proj c) fun v => add (proj c) v m)
    {c : Context} (hc : (proj c).length = m) :
    proj (runEdits sz c es) = ((es.filterMap enters?).reverse ++ proj c).take m := by
  induction es generalizing c with
  | nil => simp [runEdits, ← hc]
  | cons e es ih =>
    have hstep := h e List.mem_cons_self c
    have hrest := fun e' he' => h e' (List.mem_cons_of_mem _ he')
    rw [runEdits_cons]
    cases hv : enters? e with
    | none =>
      rw [hv, Option.elim_none] at hstep
      rw [ih hrest (by rw [hstep, hc]), hstep, List.filterMap_cons_none hv]
    | some v =>
      rw [hv, Option.elim_some] at hstep
      rw [ih hrest (by rw [hstep, length_add hc]), hstep, add, take_reverse_append_take,
        List.filterMap_cons_some hv]

/-- Newest first, a window of `m` symbols over a history of at least `m`. -/
theorem take_reverse_append_perm {xs : List Sym} {m : ℕ} (h : m ≤ xs.length) (l : List Sym) :
    ((xs.reverse ++ l).take m).Perm (xs.rtake m) := by
  rw [List.take_append_of_le_length (by simpa using h), List.rtake_eq_reverse_take_reverse]
  exact (List.reverse_perm _).symm

theorem historyWindows_of_shifts {sz : Sizes} {c : Context} (hc : c.FullLeft sz)
    {es : List WindowEdit} (hes : ∀ e ∈ es, e.Shifts sz) : HistoryWindows sz c es := by
  constructor
  · intro hlen
    rw [runEdits_window Context.llc WindowEdit.written? _ (fun e he => apply_llc (hes e he)) hc.2]
    exact take_reverse_append_perm hlen _
  · intro hlen
    rw [runEdits_window Context.ulc WindowEdit.consumed? _ (fun e he => apply_ulc (hes e he)) hc.1]
    exact take_reverse_append_perm hlen _

/-! ### Windows that do not slide -/

theorem bump_bump (context : List Sym) (v : Sym) (m : ℕ) :
    bump (bump context v m) v m = bump context v m := by
  cases m with
  | zero => rfl
  | succ m => simp [bump, List.take_take]

/-- A projection of the context on which one edit acts by `f`. -/
theorem runEdits_replicate {sz : Sizes} {e : WindowEdit} (proj : Context → List Sym)
    (f : List Sym → List Sym) (h : ∀ c, proj (e.apply sz c) = f (proj c)) (c : Context) (n : ℕ) :
    proj (runEdits sz c (List.replicate n e)) = f^[n] (proj c) := by
  induction n generalizing c with
  | zero => rfl
  | succ n ih => rw [List.replicate_succ, runEdits_cons, ih, h, Function.iterate_succ_apply]

/-- However often the same symbol is pushed by `bump`, only the front changes. -/
theorem runEdits_replicate_bump {sz : Sizes} {e : WindowEdit} (proj : Context → List Sym)
    (v : Sym) (m : ℕ) (h : ∀ c, proj (e.apply sz c) = bump (proj c) v m) (c : Context) {n : ℕ}
    (hn : 0 < n) : proj (runEdits sz c (List.replicate n e)) = bump (proj c) v m := by
  obtain ⟨n, rfl⟩ := Nat.exists_eq_succ_of_ne_zero hn.ne'
  rw [runEdits_replicate proj (fun l => bump l v m) h, Function.iterate_succ_apply,
    Function.iterate_fixed (bump_bump _ _ _)]

/-- The boundary symbols behind the front are never replaced. -/
theorem stopStartChar_mem_bump {m : ℕ} (hm : 2 ≤ m) (v : Sym) :
    stopStartChar ∈ bump (List.replicate m stopStartChar) v m := by
  obtain ⟨m, rfl⟩ := Nat.exists_eq_add_of_le' hm
  simp [bump, List.replicate_succ]

def boundaryContext (sz : Sizes) : Context :=
  ⟨List.replicate sz.ulcMax stopStartChar, [], List.replicate sz.llcMax stopStartChar⟩

theorem boundaryContext_fullLeft (sz : Sizes) : (boundaryContext sz).FullLeft sz := by
  simp [Context.FullLeft, boundaryContext]

theorem written_replicate_ins (n : ℕ) (v : Sym) :
    written (List.replicate n (.ins v)) = List.replicate n v := by
  simp [written, List.filterMap_replicate, WindowEdit.written?]

theorem consumed_replicate_sub (n : ℕ) (u v : Sym) :
    consumed (List.replicate n (.sub u v)) = List.replicate n u := by
  simp [consumed, List.filterMap_replicate, WindowEdit.consumed?]

/-- So they are in the window when the history holds only other symbols. -/
theorem not_perm_rtake {m : ℕ} (hm : 2 ≤ m) {v : Sym} (hv : v ≠ stopStartChar) (n : ℕ) :
    ¬ (bump (List.replicate m stopStartChar) v m).Perm ((List.replicate n v).rtake m) := by
  intro hperm
  have hmem := hperm.mem_iff.mp (stopStartChar_mem_bump hm v)
  rw [List.rtake] at hmem
  exact hv (List.eq_of_mem_replicate (List.mem_of_mem_drop hmem)).symm

theorem lower_window_stuck {sz : Sizes} (h : 2 ≤ sz.llcMax) :
    ¬ HistoryWindows sz (boundaryContext sz) (List.replicate sz.llcMax (.ins "a")) := by
  intro hw
  have hperm := hw.1 (by rw [written_replicate_ins, List.length_replicate])
  rw [runEdits_replicate_bump Context.llc "a" sz.llcMax (fun _ => rfl) _
    (by omega), written_replicate_ins] at hperm
  exact not_perm_rtake h (by decide) _ hperm

theorem upper_window_stuck {sz : Sizes} (h : 2 ≤ sz.ulcMax) :
    ¬ HistoryWindows sz (boundaryContext sz) (List.replicate sz.ulcMax (.sub "a" "a")) := by
  intro hw
  have hperm := hw.2 (by rw [consumed_replicate_sub, List.length_replicate])
  rw [runEdits_replicate_bump Context.ulc "a" sz.ulcMax (fun _ => rfl) _
    (by omega), consumed_replicate_sub] at hperm
  exact not_perm_rtake h (by decide) _ hperm

theorem sameShift_of_le_one {sz : Sizes} (h : sz.ulcMax ≤ 1) (c : Context) : SameShift sz c :=
  fun u _ => bump_of_le_one h c.ulc u

/-- The sizes whose windows slide under every sequence of edits, and for the other
sizes the edits that still shift them. -/
theorem windows_slide_iff (sz : Sizes) :
    ((∀ c : Context, c.FullLeft sz → ∀ es : List WindowEdit,
        HistoryWindows sz c es ∧ SameShift sz (runEdits sz c es)) ↔
      sz.ulcMax ≤ 1 ∧ sz.llcMax ≤ 1) ∧
    ∀ c : Context, c.FullLeft sz → ∀ es : List WindowEdit, (∀ e ∈ es, e.Shifts sz) →
      HistoryWindows sz c es := by
  refine ⟨⟨fun h => ?_, fun h c hc es => ⟨?_, sameShift_of_le_one h.1 _⟩⟩,
    fun c hc es hes => historyWindows_of_shifts hc hes⟩
  · by_contra hne
    have hstuck : 2 ≤ sz.ulcMax ∨ 2 ≤ sz.llcMax := by omega
    have hall := fun es => (h (boundaryContext sz) (boundaryContext_fullLeft sz) es).1
    rcases hstuck with hu | hl
    · exact upper_window_stuck hu (hall _)
    · exact lower_window_stuck hl (hall _)
  · exact historyWindows_of_shifts hc fun e _ => ⟨fun _ => h.2, fun _ _ => h.1⟩

/-- With a lower window of two symbols, the boundary symbol survives two insertions. -/
theorem windows_do_not_slide :
    ¬ ∀ (sz : Sizes) (c : Context), c.FullLeft sz → ∀ es : List WindowEdit,
      HistoryWindows sz c es ∧ SameShift sz (runEdits sz c es) :=
  fun h => lower_window_stuck (le_refl 2) (h ⟨0, 1, 2⟩ _ (boundaryContext_fullLeft _) _).1

end StochasticEdit.Generator
