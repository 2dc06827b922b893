import StochasticEdit.Wfst.Linear
import Mathlib.Data.Fin.Rev
import Mathlib.Data.List.FinRange
import Mathlib.Algebra.BigOperators.Fin

/-! Chains whose states are numbered in any order. A loop over the states meets the labels
in the order of the numbers, which need not be that of the chain. -/

namespace StochasticEdit.Wfst

variable {W : Type*}

/-- The output labels in the order in which nested loops over states and arcs meet them. -/
def VectorFst.olabels (F : VectorFst W) : List ℤ := F.states.flatMap fun s => s.arcs.map Arc.olabel

/-- A chain with the given labels, whose state at position `k` has the number `σ k`. -/
structure Chain (F : VectorFst W) (l : List (ℤ × ℤ))
    (σ : Equiv.Perm (Fin (l.length + 1))) : Prop where
  start : F.start = some (σ 0 : ℕ)
  numStates : F.numStates = l.length + 1
  step : ∀ k : Fin l.length, ∃ w, F.states[(σ k.castSucc : ℕ)]? =
    some ⟨none, [⟨l[k].1, l[k].2, w, σ k.succ⟩]⟩
  stop : ∃ w, F.states[(σ (Fin.last l.length) : ℕ)]? = some ⟨some w, []⟩

variable {F : VectorFst W} {l : List (ℤ × ℤ)} {σ : Equiv.Perm (Fin (l.length + 1))}

/-! ### The order of the numbers -/

section Positions
variable {n : ℕ}

/-- The position of a state that has an arc. -/
def position? (k : Fin (n + 1)) : Option (Fin n) := if h : (k : ℕ) < n then some ⟨k, h⟩ else none

@[simp]
theorem position?_castSucc (k : Fin n) : position? k.castSucc = some k := dif_pos k.isLt

@[simp]
theorem position?_last : position? (Fin.last n) = none := dif_neg (lt_irrefl n)

theorem position?_eq_some {q : Fin (n + 1)} {k : Fin n} :
    position? q = some k ↔ q = k.castSucc := by
  cases q using Fin.lastCases with
  | last => simpa using (Fin.castSucc_lt_last k).ne'
  | cast j => simp [Fin.castSucc_inj]

/-- The positions before the end of a chain, in the order of their numbers. -/
def positions (σ : Equiv.Perm (Fin (n + 1))) : List (Fin n) :=
  (List.finRange (n + 1)).filterMap fun q => position? (σ.symm q)

variable (σ : Equiv.Perm (Fin (n + 1)))

theorem mem_positions (k : Fin n) : k ∈ positions σ :=
  List.mem_filterMap.mpr
    ⟨σ k.castSucc, List.mem_finRange _, by rw [Equiv.symm_apply_apply, position?_castSucc]⟩

theorem pairwise_positions : (positions σ).Pairwise fun j k => σ j.castSucc < σ k.castSucc := by
  refine List.pairwise_filterMap.mpr
    ((List.pairwise_lt_finRange (n + 1)).imp fun {q r} hlt j hj k hk => ?_)
  rwa [← position?_eq_some.mp hj, ← position?_eq_some.mp hk, Equiv.apply_symm_apply,
    Equiv.apply_symm_apply]

variable {σ}

theorem nodup_of_pairwise {L : List (Fin n)}
    (hL : L.Pairwise fun j k => σ j.castSucc < σ k.castSucc) : L.Nodup := by
  refine hL.imp fun {j k} hlt => ?_
  rintro rfl
  exact absurd hlt (lt_irrefl _)

theorem perm_positions {L : List (Fin n)} (hmem : ∀ k, k ∈ L) (hL : L.Nodup) :
    L.Perm (positions σ) :=
  (List.perm_ext_iff_of_nodup hL (nodup_of_pairwise (pairwise_positions σ))).mpr fun k =>
    iff_of_true (hmem k) (mem_positions σ k)

/-- The positions are the only list of all of them in this order. -/
theorem eq_positions {L : List (Fin n)} (hmem : ∀ k, k ∈ L)
    (hL : L.Pairwise fun j k => σ j.castSucc < σ k.castSucc) : L = positions σ :=
  List.Perm.eq_of_pairwise (fun _ _ _ _ hjk hkj => absurd hjk hkj.asymm) hL (pairwise_positions σ)
    (perm_positions hmem (nodup_of_pairwise hL))

/-- Numbers along the chain give the positions in their order, -/
theorem positions_refl : positions (Equiv.refl (Fin (n + 1))) = List.finRange n :=
  (eq_positions List.mem_finRange
    ((List.pairwise_lt_finRange n).imp Fin.castSucc_lt_castSucc_iff.mpr)).symm

/-- and numbers that fall along it give them backwards. -/
theorem positions_reverse_iff :
    (positions σ).reverse = List.finRange n ↔ ∀ j k : Fin n, j < k →
      σ k.castSucc < σ j.castSucc := by
  constructor
  · intro heq j k hlt
    have hfall : (positions σ).reverse.Pairwise fun j k => σ k.castSucc < σ j.castSucc :=
      List.pairwise_reverse.mpr (pairwise_positions σ)
    rw [heq, List.pairwise_iff_getElem] at hfall
    have hrel := hfall j k (by simp) (by simp) hlt
    rwa [List.getElem_finRange, List.getElem_finRange] at hrel
  · intro hfall
    rw [← List.reverse_inj, List.reverse_reverse]
    refine (eq_positions (fun k => List.mem_reverse.mpr (List.mem_finRange k)) ?_).symm
    exact List.pairwise_reverse.mpr
      ((List.pairwise_lt_finRange n).imp fun {j k} hlt => hfall j k hlt)

end Positions

theorem Chain.olabels (h : Chain F l σ) : F.olabels = (positions σ).map fun k => l[k].2 := by
  have hstate (k : Fin (l.length + 1)) : F.states[(σ k : ℕ)]?.map (fun s => s.arcs.map Arc.olabel) =
      some ((position? k).toList.map fun k => l[k].2) := by
    cases k using Fin.lastCases with
    | last =>
      obtain ⟨w, hw⟩ := h.stop
      rw [hw, position?_last]
      rfl
    | cast k =>
      obtain ⟨w, hw⟩ := h.step k
      rw [hw, position?_castSucc]
      rfl
  have hstates : F.states.map (fun s => s.arcs.map Arc.olabel) =
      (List.finRange (l.length + 1)).map fun q => (position? (σ.symm q)).toList.map fun k =>
        l[k].2 := by
    refine List.ext_getElem? fun q => ?_
    rw [List.getElem?_map, List.getElem?_map]
    by_cases hq : q < l.length + 1
    · have hval := hstate (σ.symm ⟨q, hq⟩)
      rw [Equiv.apply_symm_apply] at hval
      rw [hval, List.getElem?_eq_getElem (by rwa [List.length_finRange]), List.getElem_finRange]
      rfl
    · have hlen : F.states.length = l.length + 1 := h.numStates
      rw [List.getElem?_eq_none (by omega),
        List.getElem?_eq_none (by rw [List.length_finRange]; omega)]
      rfl
  rw [VectorFst.olabels, List.flatMap_def, hstates, positions, List.filterMap_eq_flatMap_toList,
    List.map_flatMap, List.flatMap_def]

theorem map_finRange_snd (l : List (ℤ × ℤ)) : (List.finRange l.length).map
    (fun k => l[k].2) = l.map Prod.snd := by
  refine List.ext_getElem (by simp) fun i hi hi' => by simp

/-- Numbers that fall along the chain give the labels backwards. -/
theorem Chain.olabels_back (h : Chain F l Fin.revPerm) : F.olabels = (l.map Prod.snd).reverse := by
  have hback : (positions (Fin.revPerm (n := l.length + 1))).reverse = List.finRange l.length :=
    positions_reverse_iff.mpr fun j k hlt =>
      Fin.rev_lt_rev.mpr (Fin.castSucc_lt_castSucc_iff.mpr hlt)
  rw [h.olabels, ← List.reverse_inj, List.reverse_reverse, ← List.map_reverse, hback,
    map_finRange_snd]

/-! ### Texts put together from pieces -/

/-- A text is put together from pieces exactly if it has their length and goes on with each
of them after the ones before it. -/
theorem flatMap_eq_iff {α β : Type*} {g : α → List β} {L : List α} {T : List β} :
    L.flatMap g = T ↔ (T.length = (L.map fun a => (g a).length).sum ∧
      ∀ A a B, L = A ++ a :: B → g a <+: T.drop (A.map fun a => (g a).length).sum) := by
  induction L generalizing T with
  | nil =>
    rw [List.flatMap_nil, List.map_nil, List.sum_nil, List.length_eq_zero_iff, eq_comm]
    exact (and_iff_left fun A a B h => absurd h (by simp)).symm
  | cons a L ih =>
    rw [List.flatMap_cons, List.map_cons, List.sum_cons]
    constructor
    · rintro rfl
      obtain ⟨hlen, hpieces⟩ := ih.mp rfl
      refine ⟨by rw [List.length_append, hlen], fun A b B h => ?_⟩
      cases A with
      | nil =>
        obtain ⟨rfl, -⟩ := List.cons_eq_cons.mp h
        exact List.prefix_append _ _
      | cons a' A =>
        obtain ⟨rfl, hL⟩ := List.cons_eq_cons.mp h
        rw [List.map_cons, List.sum_cons, List.drop_length_add_append]
        exact hpieces A b B hL
    · rintro ⟨hlen, hpieces⟩
      obtain ⟨T, rfl⟩ := hpieces [] a L rfl
      rw [List.length_append, Nat.add_left_cancel_iff] at hlen
      rw [ih.mpr ⟨hlen, fun A b B h => ?_⟩]
      have hpiece := hpieces (a :: A) b B (congrArg (a :: ·) h)
      rwa [List.map_cons, List.sum_cons, List.drop_length_add_append] at hpiece

section Falling
variable {n : ℕ} {σ : Equiv.Perm (Fin (n + 1))} {A B : List (Fin n)} {k : Fin n}

/-- Before a position in falling order stand the positions with higher numbers. -/
theorem sum_map_before (h : (positions σ).reverse = A ++ k :: B) (f : Fin n → ℕ) :
    (A.map f).sum = ∑ j with σ k.castSucc < σ j.castSucc, f j := by
  have hfall : (A ++ k :: B).Pairwise fun j k => σ k.castSucc < σ j.castSucc :=
    h ▸ List.pairwise_reverse.mpr (pairwise_positions σ)
  obtain ⟨hA, hkB, hAB⟩ := List.pairwise_append.mp hfall
  have hnodup : A.Nodup := List.nodup_reverse.mp (nodup_of_pairwise (List.pairwise_reverse.mpr hA))
  have hset : Finset.univ.filter (fun j : Fin n => σ k.castSucc < σ j.castSucc) = A.toFinset := by
    refine Finset.ext fun j => ?_
    rw [Finset.mem_filter, List.mem_toFinset, and_iff_right (Finset.mem_univ j)]
    refine ⟨fun hlt => ?_, fun hj => hAB j hj k List.mem_cons_self⟩
    have hj : j ∈ A ++ k :: B := h ▸ List.mem_reverse.mpr (mem_positions σ j)
    rcases List.mem_append.mp hj with hj | hj
    · exact hj
    · rcases List.mem_cons.mp hj with rfl | hj
      · exact absurd hlt (lt_irrefl _)
      · exact absurd hlt (List.rel_of_pairwise_cons hkB hj).asymm
  rw [hset, List.sum_toFinset f hnodup]

/-- Pieces in falling order of the numbers of their states make up a text exactly if they
have its length and each of them is found after those of higher numbers. -/
theorem flatMap_positions_eq_iff {β : Type*} {g : Fin n → List β} {T : List β} :
    (positions σ).reverse.flatMap g = T ↔ (T.length = ∑ k, (g k).length ∧
      ∀ k, g k <+: T.drop (∑ j with σ k.castSucc < σ j.castSucc, (g j).length)) := by
  have hsum : ((positions σ).reverse.map fun k => (g k).length).sum = ∑ k, (g k).length := by
    have hperm := (perm_positions List.mem_finRange (List.nodup_finRange n)).trans
      (positions σ).reverse_perm.symm
    rw [Fin.sum_univ_def, (hperm.map _).sum_eq]
  rw [flatMap_eq_iff, hsum]
  refine and_congr_right fun _ => ⟨fun h k => ?_, fun h A k B hsplit => ?_⟩
  · obtain ⟨A, B, hsplit⟩ := List.append_of_mem (List.mem_reverse.mpr (mem_positions σ k))
    rw [← sum_map_before hsplit]
    exact h A k B hsplit
  · rw [sum_map_before hsplit]
    exact h k

end Falling

/-- A linear machine is a chain with its numbers along it. -/
theorem chain_linear [One W] (l : List (ℤ × ℤ)) : Chain (linear W l) l (Equiv.refl _) := by
  refine ⟨rfl, length_chainStates _ 0 l, fun k => ⟨1, ?_⟩, 1, getElem?_chainStates_length _ 0 l⟩
  rw [Equiv.refl_apply, Equiv.refl_apply, Fin.val_castSucc, Fin.val_succ, linear,
    getElem?_chainStates _ 0 k.isLt, Nat.zero_add]
  rfl

/-- The chain with the given labels whose numbers go from its end to its start. -/
def backChain (W : Type*) [One W] (l : List (ℤ × ℤ)) : VectorFst W :=
  ⟨some l.length, ⟨some 1, []⟩ :: l.reverse.zipIdx.map fun p => ⟨none, [⟨p.1.1, p.1.2, 1, p.2⟩]⟩⟩

theorem chain_backChain [One W] (l : List (ℤ × ℤ)) : Chain (backChain W l) l Fin.revPerm := by
  refine ⟨?_, ?_, fun k => ⟨1, ?_⟩, 1, ?_⟩
  · rw [backChain, Fin.revPerm_apply, Fin.rev_zero, Fin.val_last]
  · rw [backChain, VectorFst.numStates, List.length_cons, List.length_map, List.length_zipIdx,
      List.length_reverse]
  · have hrev : (Fin.revPerm k.castSucc : ℕ) = l.length - 1 - k + 1 := by
      rw [Fin.revPerm_apply, Fin.val_rev, Fin.val_castSucc]
      omega
    have hnext : (Fin.revPerm k.succ : ℕ) = l.length - 1 - k := by
      rw [Fin.revPerm_apply, Fin.val_rev, Fin.val_succ]
      omega
    have hback : l.reverse[l.length - 1 - k]? = some l[k] := by
      rw [List.getElem?_reverse (by omega), show l.length - 1 - (l.length - 1 - k) = k by omega]
      exact List.getElem?_eq_getElem k.isLt
    rw [backChain, hrev, hnext, List.getElem?_cons_succ, List.getElem?_map,
      List.getElem?_zipIdx, hback, Nat.zero_add]
    rfl
  · rw [Fin.revPerm_apply, Fin.rev_last]
    rfl

end StochasticEdit.Wfst
