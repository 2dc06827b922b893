import StochasticEdit.Wfst.Walk
import Mathlib.Algebra.BigOperators.Group.List.Basic
import Mathlib.Tactic.Ring

/-! Transducers stored state by state, as a vector of states each with its final
weight and its list of arcs. The weights are of any type. Arcs are numbered in
state-major order: first the arcs of state 0 in their order, then those of state
1, and so on, which is the order in which nested loops over states and arcs meet
them. Paths are lists of these numbers. -/

namespace StochasticEdit.Wfst

/-- An arc; label 0 is the empty word. -/
structure Arc (W : Type*) where
  ilabel : ℤ
  olabel : ℤ
  weight : W
  nextstate : ℕ
  deriving DecidableEq

/-- A state with its final weight, `none` for a state that is not final. -/
structure State (W : Type*) where
  final : Option W
  arcs : List (Arc W)
  deriving DecidableEq

/-- A transducer; `start = none` when no start state is set. -/
structure VectorFst (W : Type*) where
  start : Option ℕ
  states : List (State W)
  deriving DecidableEq

variable {W V : Type*}

def Arc.map (f : W → V) (a : Arc W) : Arc V := ⟨a.ilabel, a.olabel, f a.weight, a.nextstate⟩

def State.map (f g : W → V) (s : State W) : State V := ⟨s.final.map g, s.arcs.map (Arc.map f)⟩

@[simp] theorem Arc.map_ilabel (f : W → V) (a : Arc W) : (a.map f).ilabel = a.ilabel := rfl
@[simp] theorem Arc.map_olabel (f : W → V) (a : Arc W) : (a.map f).olabel = a.olabel := rfl
@[simp] theorem Arc.map_nextstate (f : W → V) (a : Arc W) : (a.map f).nextstate = a.nextstate := rfl
@[simp] theorem Arc.map_weight (f : W → V) (a : Arc W) : (a.map f).weight = f a.weight := rfl

/-- The arcs of a list of states numbered from `q` on, each with its source. -/
def arcsFrom : ℕ → List (State W) → List (ℕ × Arc W)
  | _, [] => []
  | q, s :: ss => s.arcs.map (q, ·) ++ arcsFrom (q + 1) ss

/-- The number of arcs that leave the first `j` of a list of states. -/
def arcsBefore : List (State W) → ℕ → ℕ
  | [], _ => 0
  | _ :: _, 0 => 0
  | s :: ss, j + 1 => s.arcs.length + arcsBefore ss j

theorem getElem?_arcsFrom (i : ℕ) (ss : List (State W)) (e q : ℕ) (a : Arc W) :
    (arcsFrom i ss)[e]? = some (q, a) ↔ ∃ j s k, q = i + j ∧ ss[j]? = some s ∧
      s.arcs[k]? = some a ∧ e = arcsBefore ss j + k := by
  induction ss generalizing i e with
  | nil => simp [arcsFrom]
  | cons s ss ih =>
    rw [arcsFrom, List.getElem?_append, List.length_map]
    split_ifs with he
    · rw [List.getElem?_map, List.getElem?_eq_getElem he]
      simp only [Option.map_some, Option.some.injEq, Prod.mk.injEq]
      constructor
      · rintro ⟨rfl, rfl⟩
        exact ⟨0, s, e, rfl, rfl, List.getElem?_eq_getElem he, by simp [arcsBefore]⟩
      · rintro ⟨j, t, k, rfl, ht, hk, hek⟩
        rcases j with _ | j
        · simp only [arcsBefore, zero_add] at hek
          simp only [List.getElem?_cons_zero, Option.some.injEq] at ht
          subst ht hek
          rw [List.getElem?_eq_getElem he, Option.some.injEq] at hk
          exact ⟨by omega, hk⟩
        · simp only [arcsBefore] at hek
          omega
    · rw [ih]
      constructor
      · rintro ⟨j, t, k, rfl, ht, hk, hek⟩
        exact ⟨j + 1, t, k, by omega, ht, hk, by simp only [arcsBefore]; omega⟩
      · rintro ⟨j, t, k, rfl, ht, hk, hek⟩
        rcases j with _ | j
        · simp only [List.getElem?_cons_zero, Option.some.injEq] at ht
          subst ht
          simp only [arcsBefore, zero_add] at hek
          have hlt := (List.getElem?_eq_some_iff.mp hk).1
          omega
        · exact ⟨j, t, k, by omega, ht, hk, by simp only [arcsBefore] at hek; omega⟩

theorem length_arcsFrom (i : ℕ) (ss : List (State W)) :
    (arcsFrom i ss).length = arcsBefore ss ss.length := by
  induction ss generalizing i with
  | nil => rfl
  | cons s ss ih => simp [arcsFrom, arcsBefore, ih]

theorem arcsFrom_map (f g : W → V) (i : ℕ) (ss : List (State W)) :
    arcsFrom i (ss.map (State.map f g)) = (arcsFrom i ss).map fun p => (p.1, p.2.map f) := by
  induction ss generalizing i with
  | nil => rfl
  | cons s ss ih => simp [arcsFrom, ih, State.map, Function.comp_def]

@[simp] theorem arcsBefore_map (f g : W → V) (ss : List (State W)) (j : ℕ) :
    arcsBefore (ss.map (State.map f g)) j = arcsBefore ss j := by
  induction ss generalizing j with
  | nil => rfl
  | cons s ss ih =>
    cases j with
    | zero => rfl
    | succ j => simp [arcsBefore, State.map, ih]

namespace VectorFst

/-- The arc with number `e` and its source state. -/
def arc? (F : VectorFst W) (e : ℕ) : Option (ℕ × Arc W) := (arcsFrom 0 F.states)[e]?

/-- The source and the target of an arc. -/
def ends (F : VectorFst W) (e : ℕ) : Option (ℕ × ℕ) := (F.arc? e).map fun p => (p.1, p.2.nextstate)

def final? (F : VectorFst W) (q : ℕ) : Option W := F.states[q]?.bind State.final

def numStates (F : VectorFst W) : ℕ := F.states.length

def numArcs (F : VectorFst W) : ℕ := (arcsFrom 0 F.states).length

/-- The number of the first arc of state `q`. -/
def firstArc (F : VectorFst W) (q : ℕ) : ℕ := arcsBefore F.states q

/-- The path `p` leads from the start state to the final state `q`. -/
def AcceptsAt (F : VectorFst W) (p : List ℕ) (q : ℕ) : Prop :=
  ∃ q₀, F.start = some q₀ ∧ walk F.ends q₀ p = some q ∧ (F.final? q).isSome

/-- The accepting paths. -/
def Accepts (F : VectorFst W) (p : List ℕ) : Prop := ∃ q, F.AcceptsAt p q

def ilabel? (F : VectorFst W) (e : ℕ) : Option ℤ := (F.arc? e).map fun p => p.2.ilabel

def olabel? (F : VectorFst W) (e : ℕ) : Option ℤ := (F.arc? e).map fun p => p.2.olabel

/-- The input string of a path, without the empty words. -/
def istring (F : VectorFst W) (p : List ℕ) : List ℤ := (p.filterMap F.ilabel?).filter (· ≠ 0)

/-- The output string of a path, without the empty words. -/
def ostring (F : VectorFst W) (p : List ℕ) : List ℤ := (p.filterMap F.olabel?).filter (· ≠ 0)

/-- The string of one label. -/
def word (l : ℤ) : List ℤ := if l = 0 then [] else [l]

/-- Replace every arc weight by `f` and every final weight by `g`. -/
def map (f g : W → V) (F : VectorFst W) : VectorFst V := ⟨F.start, F.states.map (State.map f g)⟩

/-- States, labels and finality without the weights. -/
def shape (F : VectorFst W) : VectorFst Unit := F.map (fun _ => ()) fun _ => ()

theorem arc?_eq_some_iff {F : VectorFst W} {e q : ℕ} {a : Arc W} :
    F.arc? e = some (q, a) ↔ ∃ s k, F.states[q]? = some s ∧ s.arcs[k]? = some a ∧
      e = F.firstArc q + k := by
  rw [arc?, getElem?_arcsFrom]
  constructor
  · rintro ⟨j, s, k, rfl, hs, hk, he⟩
    rw [zero_add]
    exact ⟨s, k, hs, hk, he⟩
  · rintro ⟨s, k, hs, hk, he⟩
    exact ⟨q, s, k, (zero_add q).symm, hs, hk, he⟩

theorem mem_arcs_iff {F : VectorFst W} {q : ℕ} {a : Arc W} :
    a ∈ (F.states[q]?).elim [] State.arcs ↔ ∃ e, F.arc? e = some (q, a) := by
  constructor
  · intro ha
    rcases hs : F.states[q]? with _ | s
    · simp [hs] at ha
    · rw [hs, Option.elim_some] at ha
      obtain ⟨k, hk⟩ := List.getElem?_of_mem ha
      exact ⟨_, arc?_eq_some_iff.mpr ⟨s, k, hs, hk, rfl⟩⟩
  · rintro ⟨e, ha⟩
    obtain ⟨s, k, hs, hk, -⟩ := arc?_eq_some_iff.mp ha
    rw [hs, Option.elim_some]
    exact List.mem_of_getElem? hk

theorem arc?_isSome_iff {F : VectorFst W} {e : ℕ} : (F.arc? e).isSome ↔ e < F.numArcs := by
  rw [arc?, numArcs, Option.isSome_iff_ne_none, Ne, List.getElem?_eq_none_iff, not_le]

theorem lt_numArcs_of_arc? {F : VectorFst W} {e : ℕ} {p : ℕ × Arc W} (h : F.arc? e = some p) :
    e < F.numArcs :=
  arc?_isSome_iff.mp (Option.isSome_iff_exists.mpr ⟨p, h⟩)

theorem exists_arc? {F : VectorFst W} {e : ℕ} (h : e < F.numArcs) :
    ∃ q a, F.arc? e = some (q, a) := by
  obtain ⟨⟨q, a⟩, ha⟩ := Option.isSome_iff_exists.mp (arc?_isSome_iff.mpr h)
  exact ⟨q, a, ha⟩

theorem ends_eq_some_iff {F : VectorFst W} {e q r : ℕ} :
    F.ends e = some (q, r) ↔ ∃ a, F.arc? e = some (q, a) ∧ a.nextstate = r := by
  simp only [ends, Option.map_eq_some_iff, Prod.mk.injEq]
  constructor
  · rintro ⟨⟨q', a⟩, h, rfl, rfl⟩
    exact ⟨a, h, rfl⟩
  · rintro ⟨a, h, rfl⟩
    exact ⟨(q, a), h, rfl, rfl⟩

/-- A path starts with an arc of its first state. -/
theorem walk_cons_arc_iff {F : VectorFst W} {e q r : ℕ} {p : List ℕ} :
    walk F.ends q (e :: p) = some r ↔
    ∃ a, F.arc? e = some (q, a) ∧ walk F.ends a.nextstate p = some r := by
  rw [walk_cons_iff]
  constructor
  · rintro ⟨s, he, hwalk⟩
    obtain ⟨a, ha, rfl⟩ := ends_eq_some_iff.mp he
    exact ⟨a, ha, hwalk⟩
  · rintro ⟨a, ha, hwalk⟩
    exact ⟨a.nextstate, ends_eq_some_iff.mpr ⟨a, ha, rfl⟩, hwalk⟩

theorem lt_numArcs_of_ends {F : VectorFst W} {e q r : ℕ} (h : F.ends e = some (q, r)) :
    e < F.numArcs := by
  obtain ⟨a, ha, -⟩ := ends_eq_some_iff.mp h
  exact lt_numArcs_of_arc? ha

/-- The arcs of a path. -/
theorem exists_arc_of_walk {F : VectorFst W} {p : List ℕ} {q r : ℕ} (hp : walk F.ends q p = some r)
    {e : ℕ} (he : e ∈ p) : ∃ s a, F.arc? e = some (s, a) := by
  obtain ⟨⟨s, t⟩, hends⟩ := Option.isSome_iff_exists.mp (ends_isSome_of_walk hp he)
  obtain ⟨a, ha, -⟩ := ends_eq_some_iff.mp hends
  exact ⟨s, a, ha⟩

theorem exists_arc_of_mem {F : VectorFst W} {p : List ℕ} {q : ℕ} (hp : F.AcceptsAt p q) {e : ℕ}
    (he : e ∈ p) : ∃ r a, F.arc? e = some (r, a) := by
  obtain ⟨q₀, -, hwalk, -⟩ := hp
  exact exists_arc_of_walk hwalk he

theorem numArcs_eq (F : VectorFst W) : F.numArcs = F.firstArc F.numStates := length_arcsFrom 0 _

@[simp] theorem istring_nil (F : VectorFst W) : F.istring [] = [] := rfl
@[simp] theorem ostring_nil (F : VectorFst W) : F.ostring [] = [] := rfl

theorem istring_cons {F : VectorFst W} {e q : ℕ} {a : Arc W} (h : F.arc? e = some (q, a))
    (p : List ℕ) :
    F.istring (e :: p) = (if a.ilabel = 0 then [] else [a.ilabel]) ++ F.istring p := by
  by_cases ha : a.ilabel = 0 <;> simp [istring, ilabel?, h, ha]

theorem ostring_cons {F : VectorFst W} {e q : ℕ} {a : Arc W} (h : F.arc? e = some (q, a))
    (p : List ℕ) :
    F.ostring (e :: p) = (if a.olabel = 0 then [] else [a.olabel]) ++ F.ostring p := by
  by_cases ha : a.olabel = 0 <;> simp [ostring, olabel?, h, ha]

theorem istring_append (F : VectorFst W) (p p' : List ℕ) :
    F.istring (p ++ p') = F.istring p ++ F.istring p' := by
  simp [istring]

theorem ostring_append (F : VectorFst W) (p p' : List ℕ) :
    F.ostring (p ++ p') = F.ostring p ++ F.ostring p' := by
  simp [ostring]

/-! ### Changing the weights -/

section Map
variable (f g : W → V) (F : VectorFst W)

@[simp] theorem map_start : (F.map f g).start = F.start := rfl

@[simp] theorem numStates_map : (F.map f g).numStates = F.numStates := by simp [numStates, map]

@[simp] theorem arc?_map (e : ℕ) :
    (F.map f g).arc? e = (F.arc? e).map fun p => (p.1, p.2.map f) := by
  simp [arc?, map, arcsFrom_map]

@[simp] theorem ends_map (e : ℕ) : (F.map f g).ends e = F.ends e := by
  simp [ends, Function.comp_def]

theorem ends_map_eq : (F.map f g).ends = F.ends := funext fun e => ends_map f g F e

@[simp] theorem final?_map (q : ℕ) : (F.map f g).final? q = (F.final? q).map g := by
  simp only [final?, map, List.getElem?_map]
  cases F.states[q]? <;> rfl

@[simp] theorem ilabel?_map (e : ℕ) : (F.map f g).ilabel? e = F.ilabel? e := by
  simp [ilabel?, Function.comp_def]

@[simp] theorem olabel?_map (e : ℕ) : (F.map f g).olabel? e = F.olabel? e := by
  simp [olabel?, Function.comp_def]

@[simp] theorem istring_map (p : List ℕ) : (F.map f g).istring p = F.istring p := by
  simp [istring]

@[simp] theorem ostring_map (p : List ℕ) : (F.map f g).ostring p = F.ostring p := by
  simp [ostring]

@[simp] theorem numArcs_map : (F.map f g).numArcs = F.numArcs := by
  simp [numArcs, map, arcsFrom_map]

theorem acceptsAt_map {p : List ℕ} {q : ℕ} : (F.map f g).AcceptsAt p q ↔ F.AcceptsAt p q := by
  simp [AcceptsAt, ends_map_eq]

theorem accepts_map {p : List ℕ} : (F.map f g).Accepts p ↔ F.Accepts p := by
  simp [Accepts, acceptsAt_map]

theorem shape_map : (F.map f g).shape = F.shape := by
  simp [shape, map, State.map, Function.comp_def, Arc.map]

end Map

theorem numArcs_shape (F : VectorFst W) : F.shape.numArcs = F.numArcs := numArcs_map ..

theorem accepts_shape (F : VectorFst W) {p : List ℕ} : F.shape.Accepts p ↔ F.Accepts p :=
  accepts_map ..

theorem istring_shape (F : VectorFst W) (p : List ℕ) : F.shape.istring p = F.istring p :=
  istring_map ..

theorem ostring_shape (F : VectorFst W) (p : List ℕ) : F.shape.ostring p = F.ostring p :=
  ostring_map ..

/-- Replace every arc by `f` and every final weight by `g`. -/
def mapArcs (f : Arc W → Arc V) (g : W → V) (F : VectorFst W) : VectorFst V :=
  ⟨F.start, F.states.map fun s => ⟨s.final.map g, s.arcs.map f⟩⟩

section MapArcs
variable (f : Arc W → Arc V) (g : W → V) (F : VectorFst W)

theorem arc?_mapArcs (e : ℕ) : (F.mapArcs f g).arc? e = (F.arc? e).map fun p => (p.1, f p.2) := by
  have harcs (ss : List (State W)) : ∀ i,
    arcsFrom i (ss.map fun s => ⟨s.final.map g, s.arcs.map f⟩) =
      (arcsFrom i ss).map fun p => (p.1, f p.2) := by
    induction ss with
    | nil => exact fun _ => rfl
    | cons s ss ih => exact fun i => by simp [arcsFrom, ih, Function.comp_def]
  rw [arc?, arc?, mapArcs, harcs, List.getElem?_map]

theorem final?_mapArcs (q : ℕ) : (F.mapArcs f g).final? q = (F.final? q).map g := by
  simp only [final?, mapArcs, List.getElem?_map]
  cases F.states[q]? <;> rfl

variable {f}

/-- Arcs that keep their targets keep the paths. -/
theorem acceptsAt_mapArcs (h : ∀ a, (f a).nextstate = a.nextstate) {p : List ℕ} {q : ℕ} :
    (F.mapArcs f g).AcceptsAt p q ↔ F.AcceptsAt p q := by
  have hends : (F.mapArcs f g).ends = F.ends := by
    funext e
    rw [ends, ends, arc?_mapArcs, Option.map_map]
    congr 1
    funext r
    simp [h]
  rw [AcceptsAt, AcceptsAt, hends, final?_mapArcs, Option.isSome_map]
  rfl

end MapArcs

end VectorFst

/-! ### Weights by arc number -/

/-- Give the arcs of a list the weights `f e`, `f (e + 1)`, ... -/
def numberArcs (f : ℕ → V) : ℕ → List (Arc W) → List (Arc V)
  | _, [] => []
  | e, a :: arcs => ⟨a.ilabel, a.olabel, f e, a.nextstate⟩ :: numberArcs f (e + 1) arcs

def numberStates (f : ℕ → V) (g : W → Option V) : ℕ → List (State W) → List (State V)
  | _, [] => []
  | e, s :: states =>
    ⟨s.final.bind g, numberArcs f e s.arcs⟩ :: numberStates f g (e + s.arcs.length) states

theorem numberArcs_eq (f : ℕ → V) (e : ℕ) (arcs : List (Arc W)) :
    numberArcs f e arcs = (arcs.zipIdx e).map fun p => p.1.map fun _ => f p.2 := by
  induction arcs generalizing e with
  | nil => rfl
  | cons a arcs ih => simp [numberArcs, ih, Arc.map]

theorem arcsFrom_numberStates (f : ℕ → V) (g : W → Option V) (i e : ℕ) (ss : List (State W)) :
    arcsFrom i (numberStates f g e ss) =
      ((arcsFrom i ss).zipIdx e).map fun p => (p.1.1, p.1.2.map fun _ => f p.2) := by
  induction ss generalizing i e with
  | nil => rfl
  | cons s ss ih =>
    rw [numberStates, arcsFrom, arcsFrom, ih, numberArcs_eq, List.zipIdx_append, List.map_append,
      List.length_map, List.zipIdx_map, List.map_map, List.map_map]
    rfl

theorem getElem?_numberStates_final (f : ℕ → V) (g : W → Option V) (e q : ℕ) (ss : List (State W)) :
    (numberStates f g e ss)[q]?.bind State.final = (ss[q]?.bind State.final).bind g := by
  induction ss generalizing e q with
  | nil => rfl
  | cons s ss ih =>
    rcases q with _ | q
    · rfl
    · simpa [numberStates] using ih _ q

namespace VectorFst

/-- The machine with the weight of arc `e` set to `f e`. -/
def withWeights (f : ℕ → V) (g : W → Option V) (F : VectorFst W) : VectorFst V :=
  ⟨F.start, numberStates f g 0 F.states⟩

section WithWeights
variable (f : ℕ → V) (g : W → Option V) (F : VectorFst W)

@[simp] theorem arc?_withWeights (e : ℕ) :
    (F.withWeights f g).arc? e = (F.arc? e).map fun p => (p.1, p.2.map fun _ => f e) := by
  rw [arc?, arc?, withWeights, arcsFrom_numberStates, List.getElem?_map, List.getElem?_zipIdx]
  simp [Option.map_map, Function.comp_def]

@[simp] theorem final?_withWeights (q : ℕ) : (F.withWeights f g).final? q = (F.final? q).bind g :=
  getElem?_numberStates_final f g 0 q F.states

/-- New weights leave the shape as it is, if final states stay final. -/
theorem shape_withWeights (h : ∀ q w, F.final? q = some w → (g w).isSome) :
    (F.withWeights f g).shape = F.shape := by
  have hstates : ∀ (ss : List (State W)) (e : ℕ),
      (∀ s ∈ ss, ∀ w, s.final = some w → (g w).isSome) →
      (numberStates f g e ss).map (State.map (fun _ => ()) fun _ => ()) =
        ss.map (State.map (fun _ => ()) fun _ => ()) := by
    intro ss
    induction ss with
    | nil => exact fun _ _ => rfl
    | cons s ss ih =>
      intro e hg
      rw [numberStates, List.map_cons, List.map_cons,
        ih _ fun t ht => hg t (List.mem_cons_of_mem s ht)]
      congr 1
      have hfinal : (s.final.bind g).map (fun _ => ()) = s.final.map fun _ => () := by
        rcases hs : s.final with _ | w
        · rfl
        · obtain ⟨v, hv⟩ := Option.isSome_iff_exists.mp (hg s (by simp) w hs)
          rw [Option.bind_some, hv]
          rfl
      have harcs : (numberArcs f e s.arcs).map (Arc.map fun _ => ()) =
          s.arcs.map (Arc.map fun _ => ()) := by
        rw [numberArcs_eq, List.map_map]
        conv_rhs => rw [← List.zipIdx_map_fst e s.arcs, List.map_map]
        rfl
      rw [State.map, State.map, hfinal, harcs]
  rw [shape, shape, map, map, withWeights]
  congr 1
  apply hstates
  intro s hs w hw
  obtain ⟨q, hq⟩ := List.getElem?_of_mem hs
  exact h q w (by rw [final?, hq, Option.bind_some, hw])

/-- Only the last weights count. -/
theorem withWeights_withWeights {U : Type*} (f' : ℕ → U) (g' : V → Option U) :
    (F.withWeights f g).withWeights f' g' = F.withWeights f' fun w => (g w).bind g' := by
  have harcs : ∀ (arcs : List (Arc W)) (e : ℕ),
      numberArcs f' e (numberArcs f e arcs) = numberArcs f' e arcs := by
    intro arcs
    induction arcs with
    | nil => exact fun _ => rfl
    | cons a arcs ih => exact fun e => by rw [numberArcs, numberArcs, numberArcs, ih]
  have hstates : ∀ (ss : List (State W)) (e : ℕ), numberStates f' g' e (numberStates f g e ss) =
      numberStates f' (fun w => (g w).bind g') e ss := by
    intro ss
    induction ss with
    | nil => exact fun _ => rfl
    | cons s ss ih =>
      intro e
      have hlen : (numberArcs f e s.arcs).length = s.arcs.length := by
        rw [numberArcs_eq, List.length_map, List.length_zipIdx]
      rw [numberStates, numberStates, numberStates, harcs, hlen, ih, Option.bind_assoc]
  rw [withWeights, withWeights, withWeights, hstates]

end WithWeights

/-! ### Building a transducer -/

/-- No states and no start state. -/
def empty : VectorFst W := ⟨none, []⟩

def addState (F : VectorFst W) : VectorFst W := { F with states := F.states ++ [⟨none, []⟩] }

def addArc (F : VectorFst W) (q : ℕ) (a : Arc W) : VectorFst W :=
  { F with states := F.states.modify q fun s => { s with arcs := s.arcs ++ [a] } }

def setStart (F : VectorFst W) (q : ℕ) : VectorFst W := { F with start := some q }

def setFinal (F : VectorFst W) (q : ℕ) (w : W) : VectorFst W :=
  { F with states := F.states.modify q fun s => { s with final := some w } }

section Build
variable (f g : W → V) (F : VectorFst W)

theorem map_addState : F.addState.map f g = (F.map f g).addState := by
  rw [addState, map, List.map_append]
  rfl

theorem map_setStart (q : ℕ) : (F.setStart q).map f g = (F.map f g).setStart q := rfl

/-- A change of one state goes through a change of the weights. -/
theorem map_modify {h : State W → State W} {k : State V → State V}
    (hk : ∀ s, (h s).map f g = k (s.map f g)) (ss : List (State W)) (q : ℕ) :
    (ss.modify q h).map (State.map f g) = (ss.map (State.map f g)).modify q k := by
  refine List.ext_getElem? fun i => ?_
  rw [List.getElem?_map, List.getElem?_modify, List.getElem?_modify, List.getElem?_map]
  cases ss[i]? with
  | none => rfl
  | some s =>
    by_cases hi : q = i
    · simp [hi, hk]
    · simp [hi]

theorem map_addArc (q : ℕ) (a : Arc W) : (F.addArc q a).map f g = (F.map f g).addArc q
    (a.map f) := by
  rw [addArc, map, map_modify f g (k := fun s => { s with arcs := s.arcs ++ [a.map f] })]
  · rfl
  · intro s
    simp [State.map]

theorem map_setFinal (q : ℕ) (w : W) : (F.setFinal q w).map f g = (F.map f g).setFinal q (g w) := by
  rw [setFinal, map, map_modify f g (k := fun s => { s with final := some (g w) })]
  · rfl
  · exact fun s => rfl

end Build

end VectorFst

end StochasticEdit.Wfst
