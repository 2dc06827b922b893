import StochasticEdit.Wfst.Vector
import Mathlib.Topology.Algebra.InfiniteSum.ENNReal

/-! The arcs of one state with one input label. A conditional model normalises each
such group; a loop over the arcs of a state meets a group in the order of its arc
numbers. -/

namespace StochasticEdit.Wfst

open scoped ENNReal

variable {W V : Type*}

/-- The numbers of the arcs with label `l` in a list of arcs numbered from `e` on. -/
def labelled (l : ℤ) : ℕ → List (Arc W) → List ℕ
  | _, [] => []
  | e, a :: arcs => if a.ilabel = l then e :: labelled l (e + 1) arcs else labelled l (e + 1) arcs

theorem mem_labelled {l : ℤ} {e : ℕ} {arcs : List (Arc W)} {i : ℕ} :
    i ∈ labelled l e arcs ↔ ∃ k a, i = e + k ∧ arcs[k]? = some a ∧ a.ilabel = l := by
  induction arcs generalizing e with
  | nil => simp [labelled]
  | cons a arcs ih =>
    have hsplit : (∃ k b, i = e + k ∧ (a :: arcs)[k]? = some b ∧ b.ilabel = l) ↔
        (i = e ∧ a.ilabel = l) ∨ ∃ k b, i = e + 1 + k ∧ arcs[k]? = some b ∧ b.ilabel = l := by
      constructor
      · rintro ⟨_ | k, b, rfl, hk, hb⟩
        · obtain rfl : a = b := by simpa using hk
          exact .inl ⟨rfl, hb⟩
        · exact .inr ⟨k, b, by omega, by simpa using hk, hb⟩
      · rintro (⟨rfl, ha⟩ | ⟨k, b, rfl, hk, hb⟩)
        · exact ⟨0, a, rfl, rfl, ha⟩
        · exact ⟨k + 1, b, by omega, by simpa using hk, hb⟩
    rw [hsplit, labelled, ← ih]
    by_cases ha : a.ilabel = l <;> simp [ha]

theorem labelled_nodup (l : ℤ) (e : ℕ) (arcs : List (Arc W)) : (labelled l e arcs).Nodup := by
  induction arcs generalizing e with
  | nil => exact List.nodup_nil
  | cons a arcs ih =>
    have hlt : e ∉ labelled l (e + 1) arcs := by
      intro h
      obtain ⟨k, b, hk, -⟩ := mem_labelled.mp h
      omega
    by_cases ha : a.ilabel = l
    · rw [labelled, if_pos ha]
      exact List.nodup_cons.mpr ⟨hlt, ih _⟩
    · rw [labelled, if_neg ha]
      exact ih _

theorem labelled_map (l : ℤ) (e : ℕ) (f : W → V) (arcs : List (Arc W)) :
    labelled l e (arcs.map (Arc.map f)) = labelled l e arcs := by
  induction arcs generalizing e with
  | nil => rfl
  | cons a arcs ih => simp only [List.map_cons, labelled, Arc.map_ilabel, ih]

theorem labelled_eq_range' {l : ℤ} {e : ℕ} {arcs : List (Arc W)} (h : ∀ a ∈ arcs, a.ilabel = l) :
    labelled l e arcs = List.range' e arcs.length := by
  induction arcs generalizing e with
  | nil => rfl
  | cons a arcs ih =>
    rw [labelled, if_pos (h a List.mem_cons_self), ih fun b hb => h b (List.mem_cons_of_mem a hb),
      List.length_cons, List.range'_succ]

namespace VectorFst

/-- The arcs of a state with an input label. -/
def group (F : VectorFst W) (q : ℕ) (l : ℤ) : Set ℕ :=
  {e | ∃ a, F.arc? e = some (q, a) ∧ a.ilabel = l}

/-- The same arcs in order. -/
def groupArcs (F : VectorFst W) (q : ℕ) (l : ℤ) : List ℕ :=
  (F.states[q]?).elim [] fun s => labelled l (F.firstArc q) s.arcs

/-- Arc probabilities that sum to 1 over each nonempty group. -/
def Normalised (F : VectorFst W) (pr : ℕ → ℝ≥0∞) : Prop :=
  ∀ q l, (F.group q l).Nonempty → (tsum fun e : F.group q l => pr e) = 1

variable {F : VectorFst W}

theorem mem_group {q : ℕ} {l : ℤ} {e : ℕ} :
    e ∈ F.group q l ↔ ∃ a, F.arc? e = some (q, a) ∧ a.ilabel = l := Iff.rfl

theorem mem_groupArcs {q : ℕ} {l : ℤ} {e : ℕ} : e ∈ F.groupArcs q l ↔ e ∈ F.group q l := by
  rw [mem_group, groupArcs]
  simp only [arc?_eq_some_iff]
  rcases hs : F.states[q]? with _ | s
  · simp
  · simp only [Option.elim_some, mem_labelled, Option.some.injEq]
    constructor
    · rintro ⟨k, a, rfl, hk, ha⟩
      exact ⟨a, ⟨s, k, rfl, hk, rfl⟩, ha⟩
    · rintro ⟨a, ⟨s, k, rfl, hk, rfl⟩, ha⟩
      exact ⟨k, a, rfl, hk, ha⟩

theorem groupArcs_nodup (F : VectorFst W) (q : ℕ) (l : ℤ) : (F.groupArcs q l).Nodup := by
  rw [groupArcs]
  cases F.states[q]? with
  | none => exact List.nodup_nil
  | some s => exact labelled_nodup _ _ _

theorem lt_numArcs_of_mem_group {q : ℕ} {l : ℤ} {e : ℕ} (h : e ∈ F.group q l) : e < F.numArcs := by
  obtain ⟨a, ha, -⟩ := h
  exact lt_numArcs_of_arc? ha

theorem length_groupArcs_le (F : VectorFst W) (q : ℕ) (l : ℤ) :
    (F.groupArcs q l).length ≤ F.numArcs := by
  have hsub : F.groupArcs q l ⊆ List.range F.numArcs := fun e he =>
    List.mem_range.mpr (lt_numArcs_of_mem_group (mem_groupArcs.mp he))
  have hle := ((F.groupArcs_nodup q l).subperm hsub).length_le
  rwa [List.length_range] at hle

theorem group_finite (F : VectorFst W) (q : ℕ) (l : ℤ) : (F.group q l).Finite :=
  (Set.finite_lt_nat F.numArcs).subset fun _ => lt_numArcs_of_mem_group

theorem normalised_congr {pr pr' : ℕ → ℝ≥0∞} (h : ∀ e < F.numArcs, pr e = pr' e) :
    F.Normalised pr ↔ F.Normalised pr' := by
  refine forall₃_congr fun q l _ => ?_
  rw [tsum_congr fun e : F.group q l => h e (lt_numArcs_of_mem_group e.2)]

/-- A sum over a group, in the order of its arcs. -/
theorem tsum_group (F : VectorFst W) (q : ℕ) (l : ℤ) (f : ℕ → ℝ≥0∞) :
    (tsum fun e : F.group q l => f e) = ((F.groupArcs q l).map f).sum := by
  have hset : F.group q l = ((F.groupArcs q l).toFinset : Set ℕ) := by
    ext e
    rw [Finset.mem_coe, List.mem_toFinset, mem_groupArcs]
  rw [hset, Finset.tsum_subtype' (F.groupArcs q l).toFinset f,
    List.sum_toFinset f (F.groupArcs_nodup q l)]

/-- Groups do not depend on the weights. -/
theorem groupArcs_map (f g : W → V) (F : VectorFst W) (q : ℕ) (l : ℤ) :
    (F.map f g).groupArcs q l = F.groupArcs q l := by
  rw [groupArcs, groupArcs, firstArc, firstArc, map, List.getElem?_map, arcsBefore_map]
  cases F.states[q]? with
  | none => rfl
  | some s => exact labelled_map l _ f s.arcs

theorem group_map (f g : W → V) (F : VectorFst W) (q : ℕ) (l : ℤ) :
    (F.map f g).group q l = F.group q l := by
  ext e
  rw [← mem_groupArcs, groupArcs_map, mem_groupArcs]

theorem groupArcs_of_shape_eq {G : VectorFst V} (h : F.shape = G.shape) (q : ℕ) (l : ℤ) :
    F.groupArcs q l = G.groupArcs q l := by
  rw [← groupArcs_map (fun _ => ()) (fun _ => ()) F, ← groupArcs_map (fun _ => ()) (fun _ => ()) G]
  exact congrArg (fun S : VectorFst Unit => S.groupArcs q l) h

theorem group_of_shape_eq {G : VectorFst V} (h : F.shape = G.shape) (q : ℕ) (l : ℤ) :
    F.group q l = G.group q l := by
  rw [← group_map (fun _ => ()) (fun _ => ()) F, ← group_map (fun _ => ()) (fun _ => ()) G]
  exact congrArg (fun S : VectorFst Unit => S.group q l) h

end VectorFst

end StochasticEdit.Wfst
