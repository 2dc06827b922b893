import StochasticEdit.Evaluation.Expected
import StochasticEdit.Evaluation.TestData
import StochasticEdit.Pipeline.Parameters

/-! What the shortest distances of the lattices mean. The lattice of an input and an output
with the transducer between them has one path for each path of the transducer that relates
the two strings, so its distance is the probability of the output given the input. -/

namespace StochasticEdit.Pipeline

open Wfst Generator Features Trainer Evaluation Text
open scoped ENNReal

/-! ### The acceptors of a pair -/

/-- The acceptors of a padded upper string and a lower string. -/
noncomputable def exemplar (args : Args) (p : List Sym × List Sym) :
    VectorFst LogWeight × VectorFst LogWeight :=
  (goldFst ((p.1 ++ padding args).map (idIn args)), goldFst (p.2.map (idOut args)))

/-- The strings of a pair are over the alphabets. -/
def Over (args : Args) (p : List Sym × List Sym) : Prop :=
  (∀ s ∈ p.1, s ∈ args.V1) ∧ ∀ s ∈ p.2, s ∈ args.V2

theorem textAcceptor_chars {ok : Char → Prop} {V w : List Sym} (hV : CharSymbols ok V)
    (hw : ∀ s ∈ w, s ∈ V ∨ s = stopStartChar) {table : List (Sym × ℤ)} {id : Sym → ℤ}
    (hid : ∀ s ∈ w, symbolId table s = some (id s)) :
    textAcceptor table (chars w) = goldFst (w.map id) := by
  have hchars : chars w = w.map fun s => s.toList.headD '#' := chars_eq_map fun s hs =>
    hV.exists_char (hw s hs)
  rw [textAcceptor, goldFst, labelPairs, hchars, List.map_map, List.map_map]
  refine congrArg (linear LogWeight) (List.map_congr_left fun s hs => ?_)
  obtain ⟨x, hx⟩ := hV.exists_char (hw s hs)
  have hsingle : String.singleton x = s :=
    String.toList_injective ((String.toList_singleton x).trans hx.symm)
  have hkey : findKey table s = id s := by rw [findKey, hid s hs, Option.getD_some]
  simp only [Function.comp_apply, hx, List.headD_cons, hsingle, hkey]

/-- The acceptors that `main` makes of the two columns of a row. -/
theorem exemplar_eq {ok : Char → Prop} {args : Args} (hV1 : CharSymbols ok args.V1)
    (hV2 : CharSymbols ok args.V2) {p : List Sym × List Sym} (hp : Over args p) : exemplar args p =
      (textAcceptor args.symsIn (chars (p.1 ++ padding args)),
        textAcceptor args.symsOut (chars p.2)) := by
  have hupper : ∀ s ∈ p.1 ++ padding args, s ∈ args.V1 ∨ s = stopStartChar := mem_padded hp.1
  rw [textAcceptor_chars hV1 hupper fun s hs => symbolId_idIn (hupper s hs),
    textAcceptor_chars hV2 (fun s hs => .inl (hp.2 s hs)) fun s hs => symbolId_idOut (hp.2 s hs)]
  rfl

theorem idIn_padded_ne_zero {args : Args} (hV : args.Unreserved) {x : List Sym}
    (hx : ∀ s ∈ x, s ∈ args.V1) :
    ∀ l ∈ (x ++ padding args).map (idIn args), l ≠ 0 := by
  intro l hl
  obtain ⟨s, hs, rfl⟩ := List.mem_map.mp hl
  exact idIn_ne_zero hV (mem_padded hx s hs)

/-! ### The lattice of a pair -/

/-- The two compositions of a lattice are exact. -/
structure ExactLattice (comp : Composer) (F : VectorFst LogWeight)
    (exemplar : VectorFst LogWeight × VectorFst LogWeight) : Prop where
  medial : IsExact exemplar.1.shape F.shape (medialOrigins comp F exemplar.1)
  lattice : IsExact (medialOrigins comp F exemplar.1).shape exemplar.2.shape
    (latticeOrigins comp F exemplar)

/-- The lattice of two strings has the paths that relate them. -/
theorem shortestDistance_gold {comp : Composer} {F G : VectorFst LogWeight} (hG : G.shape = F.shape)
    {s t : List ℤ} (hs : ∀ l ∈ s, l ≠ 0) (ht : ∀ l ∈ t, l ≠ 0)
    (h : ExactLattice comp F (goldFst s, goldFst t)) :
    (logLattice comp G (goldFst s, goldFst t)).shortestDistance = G.mass s t := by
  have hmedial : VectorFst.Exact comp (goldFst s) G := by
    have hexact := h.medial
    rwa [medialOrigins, ← hG] at hexact
  have hlattice : VectorFst.Exact comp (VectorFst.compose comp (goldFst s) G) (goldFst t) := by
    have hexact := h.lattice
    rw [latticeOrigins, medialOrigins, ← hG] at hexact
    rw [VectorFst.Exact, shape_compose]
    exact hexact
  have hmass (u v : List ℤ) : (VectorFst.compose comp (goldFst s) G).mass u v = if u = s
      then G.mass s v else 0 := by
    rw [VectorFst.mass_compose hmedial]
    simp only [mass_goldFst hs]
    rw [tsum_eq_single s]
    · by_cases hu : u = s <;> simp [hu]
    · exact fun r hr => by rw [if_neg fun hboth => hr hboth.2, zero_mul]
  rw [← VectorFst.tsum_mass, logLattice, tsum_eq_single s, tsum_eq_single t]
  · rw [VectorFst.mass_compose hlattice, tsum_mass_goldFst ht, if_pos rfl, hmass, if_pos rfl]
  · intro v hv
    rw [VectorFst.mass_compose hlattice, tsum_mass_goldFst ht, if_neg hv]
  · intro u hu
    refine ENNReal.tsum_eq_zero.mpr fun v => ?_
    rw [VectorFst.mass_compose hlattice, tsum_mass_goldFst ht, hmass, if_neg hu, ite_self]

/-- Acceptors without empty words have exact lattices with every machine. -/
theorem exactLattice_product (F : VectorFst LogWeight) {s t : List ℤ} (hs : ∀ l ∈ s, l ≠ 0)
    (ht : ∀ l ∈ t, l ≠ 0) :
    ExactLattice product F (goldFst s, goldFst t) where
  medial := isExact_product ((noEmpty_goldFst hs).noConflict_left F)
  lattice := isExact_product
    ((noEmpty_goldFst ht).noConflict_right (medialOrigins product F (goldFst s)))

/-! ### The distance of a pair -/

theorem idOut_ne_zero_of_mem {args : Args} (hV : args.Unreserved) {y : List Sym}
    (hy : ∀ s ∈ y, s ∈ args.V2) :
    ∀ l ∈ y.map (idOut args), l ≠ 0 := by
  intro l hl
  obtain ⟨s, hs, rfl⟩ := List.mem_map.mp hl
  exact idOut_ne_zero hV (hy s hs)

section Distance
variable {ord : HashOrder} {args : Args} {M : Machine LogWeight}

theorem spells_out_iff (hV : args.Valid) {y : List Sym} (hy : ∀ s ∈ y, s ∈ args.V2)
    {labels : List ℤ} :
    Spells args.symsOut labels y ↔ labels = y.map (idOut args) :=
  @spells_iff ⟨args.sizes, args.V2, args.V1, args.newTable⟩
    ⟨⟨hV.lower, hV.upper⟩, hV.newLower, hV.newUpper⟩ y (fun s hs => .inl (hy s hs)) labels

/-- The paths that relate the ids of two strings are those that are labelled with them. -/
theorem labels_eq (hV : args.Valid) {x y : List Sym} (hx : ∀ s ∈ x, s ∈ args.V1)
    (hy : ∀ s ∈ y, s ∈ args.V2) :
    {p | M.Labels args (x ++ padding args) y p} = {p | M.fst.Accepts p ∧
      M.fst.istring p = (x ++ padding args).map (idIn args) ∧
        M.fst.ostring p = y.map (idOut args)} := by
  ext p
  exact and_congr_right fun _ => and_congr (spells_iff hV (mem_padded hx)) (spells_out_iff hV hy)

theorem final?_eq_one (h : contextualEdit LogWeight ord args = some M) (w : ℕ → LogWeight) {q : ℕ}
    {x : LogWeight} (hx : (weighted M.fst w).final? q = some x) : x = 1 := by
  rw [weighted, VectorFst.final?_withWeights, Option.bind_fun_some] at hx
  have hq : q = 0 := (final?_isSome_iff h).mp (Option.isSome_iff_exists.mpr ⟨x, hx⟩)
  rw [hq, VectorFst.final?, machine_state_zero h] at hx
  exact (Option.some.inj hx).symm

/-- Paths of the weighted machine. -/
theorem totalWeight_weighted (F : VectorFst LogWeight) (w : ℕ → LogWeight) (s t : List ℤ) :
    totalWeight (weighted F w).arcWeight
      {p | (weighted F w).Accepts p ∧ (weighted F w).istring p = s ∧
      (weighted F w).ostring p = t} =
        totalWeight w {p | F.Accepts p ∧ F.istring p = s ∧ F.ostring p = t} := by
  have hshape : (weighted F w).shape = F.shape := shape_weighted F w
  have haccepts (p : List ℕ) : (weighted F w).Accepts p ↔ F.Accepts p := by
    rw [← VectorFst.accepts_shape, hshape, VectorFst.accepts_shape]
  have hin (p : List ℕ) : (weighted F w).istring p = F.istring p := by
    rw [← VectorFst.istring_shape, hshape, VectorFst.istring_shape]
  have hout (p : List ℕ) : (weighted F w).ostring p = F.ostring p := by
    rw [← VectorFst.ostring_shape, hshape, VectorFst.ostring_shape]
  simp only [haccepts, hin, hout]
  refine tsum_congr fun p => ?_
  obtain ⟨⟨q, q₀, -, hwalk, -⟩, -⟩ := p.2
  refine congrArg List.prod (List.map_congr_left fun e he => ?_)
  obtain ⟨r, a, ha⟩ := VectorFst.exists_arc_of_walk hwalk he
  exact weightAt_weighted (VectorFst.lt_numArcs_of_arc? ha)

/-- The distance of a pair adds up the paths of the transducer that relate the strings. -/
theorem shortestDistance_eq (h : contextualEdit LogWeight ord args = some M) (hV : args.Valid)
    {comp : Composer} (w : ℕ → LogWeight) {x y : List Sym} (hp : Over args (x, y))
    (hexact : ExactLattice comp M.fst (exemplar args (x, y))) :
    (logLattice comp (weighted M.fst w) (exemplar args (x, y))).shortestDistance =
      totalWeight w {p | M.Labels args (x ++ padding args) y p} := by
  rw [labels_eq hV hp.1 hp.2, ← totalWeight_weighted,
    ← VectorFst.mass_eq_totalWeight fun q x hx => final?_eq_one h w hx]
  exact shortestDistance_gold (shape_weighted M.fst w) (idIn_padded_ne_zero hV.unreserved hp.1)
    (idOut_ne_zero_of_mem hV.unreserved hp.2) hexact

end Distance

/-! ### One pair -/

theorem over_small (sz : Sizes) : ∀ p ∈ [(["a"], ["b"])], Over (smallArgs sz) p := by
  intro p hp
  rw [List.mem_singleton.mp hp]
  exact ⟨by simp [smallArgs], by simp [smallArgs]⟩

theorem exactLattice_small (sz : Sizes) (F : VectorFst LogWeight) :
    ∀ p ∈ [(["a"], ["b"])], ExactLattice product F (exemplar (smallArgs sz) p) := by
  intro p hp
  have hover := over_small sz p hp
  exact exactLattice_product F (idIn_padded_ne_zero (smallArgs_valid sz).unreserved hover.1)
    (idOut_ne_zero_of_mem (smallArgs_valid sz).unreserved hover.2)

end StochasticEdit.Pipeline
