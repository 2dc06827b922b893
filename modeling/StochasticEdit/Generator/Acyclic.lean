import StochasticEdit.Generator.Records
import StochasticEdit.Wfst.Acyclic
import StochasticEdit.Wfst.ShortestDistance

/-! The lattices have no cycle. INS arcs, and ABS arcs that leave the windows as they are, are
loops, but they write or read a symbol. The arcs that do neither are DEL, which shortens the
right window, and FINAL, which leads to the state without arcs. -/

namespace StochasticEdit.Generator

open Wfst VectorFst
open scoped ENNReal

variable {W : Type*} {ord : HashOrder} {args : Args} {M : Machine W} {c : Context}

/-- One more than the length of the right window, and 0 in the final state. -/
def Machine.height (M : Machine W) (q : ℕ) : ℕ :=
  match M.context? q with
  | some (some c) => c.urc.length + 1
  | _ => 0

/-- The acceptor of a string, with the ids of its symbols. -/
def acceptor (W : Type*) [One W] (id : Sym → ℤ) (x : List Sym) : VectorFst W :=
  linear W (x.map fun v => (id v, id v))

/-- The strings `x` and `y` around the transducer. -/
def stringLattice [One W] [Mul W] (comp : Composer) (args : Args) (F : VectorFst W)
    (x y : List Sym) : VectorFst W :=
  VectorFst.compose comp (VectorFst.compose comp (acceptor W (idIn args) x) F)
    (acceptor W (idOut args) y)

/-- Both compositions of the lattice move in pairs of states. -/
def ComposesStrings [One W] [Mul W] (comp : Composer) (args : Args) (F : VectorFst W)
    (x y : List Sym) : Prop :=
  MovesPairs (acceptor W (idIn args) x).shape F.shape
    (comp (acceptor W (idIn args) x).shape F.shape) ∧
    MovesPairs (VectorFst.compose comp (acceptor W (idIn args) x) F).shape
      (acceptor W (idOut args) y).shape
      (comp (VectorFst.compose comp (acceptor W (idIn args) x) F).shape
        (acceptor W (idOut args) y).shape)

section Height
variable [One W] (h : contextualEdit W ord args = some M)

include h

theorem height_stateNum (hc : IsKey args c) :
    M.height (stateNum ord args c) = c.urc.length + 1 := by
  rw [Machine.height, context?_stateNum h hc]

/-- A context that is no state would be looked up as state 0. -/
theorem height_targetNum_le (d : Context) :
    M.height (targetNum ord args (some d)) ≤ d.urc.length + 1 := by
  by_cases hd : IsKey args d
  · exact (height_stateNum h hd).le
  · have hnone : (allLookup (keys ord args)).lookup d = none := by
      rw [← Option.not_isSome_iff_eq_none, lookup_isSome_iff]
      exact hd
    have hzero : targetNum ord args (some d) =
        0 := by rw [targetNum, stateNum, hnone, Option.getD_none]
    rw [hzero]
    exact Nat.zero_le _

/-- The arcs that read and write nothing lead down. -/
theorem height_lt (h1 : ∀ v ∈ args.V1, v ∉ args.newTable.emptyNames)
    (h2 : ∀ v ∈ args.V2, v ∉ args.newTable.emptyNames) {e q : ℕ} {a : Arc W}
    (he : M.fst.arc? e = some (q, a)) (hi : a.ilabel = 0) (ho : a.olabel = 0) :
    M.height a.nextstate < M.height q := by
  obtain ⟨c, ⟨m, t⟩, hc, rfl, hm, rfl⟩ := exists_move_of_arc? h he
  rw [height_stateNum h hc]
  have hout {v : Sym} (hv : v ∈ args.V2) : idOut args v ≠ 0 :=
    (symbolId_ne_zero_iff (symbolId_idOut hv)).mpr (h2 v hv)
  cases m with
  | final =>
    obtain ⟨rfl, -⟩ := mem_moves_final.mp hm
    exact Nat.succ_pos _
  | ins v => exact absurd ho (hout (mem_moves_ins.mp hm).2.1)
  | sub v => exact absurd ho (hout (mem_moves_sub.mp hm).2.1)
  | del =>
    obtain ⟨-, u, l, hurc, -, rfl⟩ := mem_moves_del.mp hm
    have hle := height_targetNum_le h (delKey args.sizes c u)
    have hlen : (delKey args.sizes c u).urc.length = l.length := by
      show (bump2 c.urc).length = l.length
      rw [hurc]
      rfl
    show M.height (targetNum ord args (some (delKey args.sizes c u))) < _
    rw [hurc, List.length_cons]
    omega
  | abs v =>
    have hv := (mem_moves_abs.mp hm).2.1
    refine absurd hi ((symbolId_ne_zero_iff (symbolId_idIn hv)).mpr ?_)
    rcases hv with hv | rfl
    · exact h1 v hv
    · exact args.newTable.sharp

theorem noEmptyCycle_contextualEdit (h1 : ∀ v ∈ args.V1, v ∉ args.newTable.emptyNames)
    (h2 : ∀ v ∈ args.V2, v ∉ args.newTable.emptyNames) : M.fst.NoEmptyCycle :=
  noEmptyCycle_of_potential M.height fun _ _ _ he hi ho => height_lt h h1 h2 he hi ho

end Height

/-- Over alphabets without a name of the empty word, the transducer has no cycle that reads and
writes nothing. So under any weights no lattice between two strings has a
cycle, and its total weight is a finite sum. -/
theorem lattice_acyclic [One W] (h : contextualEdit W ord args = some M)
    (h1 : ∀ v ∈ args.V1, v ∉ args.newTable.emptyNames)
    (h2 : ∀ v ∈ args.V2, v ∉ args.newTable.emptyNames) {F : VectorFst ℝ≥0∞}
    (hF : F.shape = M.fst.shape) {comp : Composer} {x y : List Sym}
    (hcomp : ComposesStrings comp args F x y) :
    M.fst.NoEmptyCycle ∧ (stringLattice comp args F x y).Acyclic ∧
      ∃ hfin : {p | (stringLattice comp args F x y).Accepts p}.Finite,
        (stringLattice comp args F x y).shortestDistance =
          ∑ p ∈ hfin.toFinset, (stringLattice comp args F x y).value p := by
  have hM := noEmptyCycle_contextualEdit h h1 h2
  have hlattice : (stringLattice comp args F x y).Acyclic :=
    acyclic_compose (acyclic_linear _) (hM.of_shape_eq hF) (acyclic_linear _) hcomp.1 hcomp.2
  exact ⟨hM, hlattice, hlattice.finite_accepts, shortestDistance_eq_sum _⟩

theorem composesStrings_product [One W] [Mul W] (args : Args) (F : VectorFst W) (x y : List Sym) :
    ComposesStrings Wfst.product args F x y := ⟨movesPairs_product _ _, movesPairs_product _ _⟩

theorem lattice_acyclic_one_two_two : ∃ M,
    contextualEdit ℝ≥0∞ insertionOrder (smallArgs ⟨1, 2, 2⟩) = some M ∧ M.fst.NoEmptyCycle ∧
      (stringLattice Wfst.product (smallArgs ⟨1, 2, 2⟩) M.fst ["a", "#", "#"] ["b"]).Acyclic ∧
      ∃ hfin : {p | (stringLattice Wfst.product (smallArgs ⟨1, 2, 2⟩) M.fst
          ["a", "#", "#"] ["b"]).Accepts p}.Finite,
        (stringLattice Wfst.product (smallArgs ⟨1, 2, 2⟩) M.fst
            ["a", "#", "#"] ["b"]).shortestDistance =
          ∑ p ∈ hfin.toFinset, (stringLattice Wfst.product (smallArgs ⟨1, 2, 2⟩) M.fst
            ["a", "#", "#"] ["b"]).value p := by
  obtain ⟨M, hM⟩ := exists_contextualEdit ℝ≥0∞ insertionOrder
    (show Completes (smallArgs ⟨1, 2, 2⟩) from .inl le_rfl)
  have hV := (smallArgs_valid ⟨1, 2, 2⟩).unreserved
  exact ⟨M, hM, lattice_acyclic hM hV.upper.empty hV.lower.empty rfl
    (composesStrings_product _ _ _ _)⟩

/-- All windows are empty, and the name of the empty word is among the lower symbols. -/
def emptyWordArgs : Args := ⟨⟨0, 0, 0⟩, ["a"], [epsilon], epsilonTable⟩

/-- Then inserting it is a loop that reads and writes nothing. -/
theorem not_lattice_acyclic :
    ¬ ∀ (ord : HashOrder) (args : Args) (M : Machine ℝ≥0∞) (comp : Composer)
    (x y : List Sym), contextualEdit ℝ≥0∞ ord args = some M →
    (∀ v ∈ x, v ∈ args.V1 ∨ v = stopStartChar) → (∀ v ∈ y, v ∈ args.V2) →
    ComposesStrings comp args M.fst x y →
    M.fst.NoEmptyCycle ∧ (stringLattice comp args M.fst x y).Acyclic := by
  intro hclaim
  obtain ⟨M, hM⟩ := exists_contextualEdit ℝ≥0∞ insertionOrder
    (show Completes emptyWordArgs from .inl (Nat.zero_le 1))
  obtain ⟨hno, -⟩ := hclaim insertionOrder emptyWordArgs M Wfst.product [] [] hM (by simp) (by simp)
    (composesStrings_product _ _ _ _)
  have hins : (Move.ins epsilon, some (startKey emptyWordArgs.sizes)) ∈
      moves emptyWordArgs (startKey emptyWordArgs.sizes) :=
    mem_moves_ins.mpr ⟨by decide, by decide, rfl⟩
  obtain ⟨e, he⟩ := exists_arc?_of_move hM startKey_isKey hins
  have hloop : walk M.fst.ends
    (stateNum insertionOrder emptyWordArgs (startKey emptyWordArgs.sizes)) [e] =
      some (stateNum insertionOrder emptyWordArgs (startKey emptyWordArgs.sizes)) :=
    walk_cons_arc_iff.mpr ⟨_, he, rfl⟩
  have hid : idOut emptyWordArgs epsilon = 0 := by decide
  refine absurd (hno _ [e] hloop ?_ ?_) (List.cons_ne_nil e [])
  · rw [istring_cons he]
    rfl
  · rw [ostring_cons he, ostring_nil, List.append_nil]
    exact if_pos hid

end StochasticEdit.Generator
