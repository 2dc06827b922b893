import StochasticEdit.Generator.Relation
import StochasticEdit.Wfst.Group
import StochasticEdit.Wfst.PathSum

/-! The transducer as a conditional distribution. With probabilities that sum to 1
over the arcs of each state and input label, the paths that read a padded upper
string lose no mass: a state either waits for the next input symbol, with one arc
for it, or has a full right context and moves without reading. -/

namespace StochasticEdit.Generator

open Wfst
open scoped ENNReal

variable {W : Type*} {ord : HashOrder} {args : Args} {c : Context}

/-- The accepting paths of at most `n` arcs that read `u`. -/
def Machine.finished (args : Args) (M : Machine W) (u : List Sym) (n : ℕ) : Set (List ℕ) :=
  {p | p.length ≤ n ∧ M.fst.Accepts p ∧ Spells args.symsIn (M.fst.istring p) u}

/-- The paths of `n` arcs that read a prefix of `u` and end before the final state 0. -/
def Machine.unfinished (args : Args) (M : Machine W) (u : List Sym) (n : ℕ) : Set (List ℕ) :=
  {p | p.length = n ∧ (∃ q₀ q, M.fst.start = some q₀ ∧ walk M.fst.ends q₀ p = some q ∧ q ≠ 0) ∧
    ∃ u', u' <+: u ∧ Spells args.symsIn (M.fst.istring p) u'}

/-! ### The sum over the first arc -/

section Mass
variable (F : VectorFst W)

/-- The paths from `q` to state 0 of at most `n` arcs that read `L`. -/
def done (q : ℕ) (L : List ℤ) (n : ℕ) : Set (List ℕ) :=
  {p | p.length ≤ n ∧ walk F.ends q p = some 0 ∧ F.istring p = L}

/-- The paths from `q` of `n` arcs that read a prefix of `L` and do not end in 0. -/
def underway (q : ℕ) (L : List ℤ) (n : ℕ) : Set (List ℕ) :=
  {p | p.length = n ∧ (∃ r, walk F.ends q p = some r ∧ r ≠ 0) ∧ F.istring p <+: L}

def live (q : ℕ) (L : List ℤ) (n : ℕ) : Set (List ℕ) := done F q L n ∪ underway F q L n

/-- The probability of being done with `L` or still under way after `n` arcs. -/
noncomputable def mass (pr : ℕ → ℝ≥0∞) (q : ℕ) (L : List ℤ) (n : ℕ) : ℝ≥0∞ :=
  totalWeight pr (live F q L n)

variable {F} {pr : ℕ → ℝ≥0∞} {q : ℕ}

theorem done_disjoint_underway (q : ℕ) (L : List ℤ) (n : ℕ) :
    Disjoint (done F q L n) (underway F q L n) := by
  rw [Set.disjoint_left]
  rintro p ⟨-, hw, -⟩ ⟨-, ⟨r, hw', hr⟩, -⟩
  exact hr (Option.some.inj (hw'.symm.trans hw))

theorem mass_zero (hq : q ≠ 0) (L : List ℤ) : mass F pr q L 0 = 1 := by
  rw [mass, totalWeight_eq, tsum_eq_single []]
  · have hnil : [] ∈ live F q L 0 := .inr ⟨rfl, ⟨q, rfl, hq⟩, List.nil_prefix⟩
    rw [Set.indicator_of_mem hnil, pathWeight_nil]
  · intro p hp
    have hlen : p.length ≠ 0 := fun h => hp (List.length_eq_zero_iff.mp h)
    apply Set.indicator_of_notMem
    rintro (⟨h, -⟩ | ⟨h, -⟩)
    · omega
    · exact hlen h

theorem cons_mem_live {e : ℕ} {p : List ℕ} {L : List ℤ} {n : ℕ} :
    e :: p ∈ live F q L (n + 1) ↔
      ∃ a L', F.arc? e = some (q, a) ∧ VectorFst.word a.ilabel ++ L' = L ∧
        p ∈ live F a.nextstate L' n := by
  have hstep {r : ℕ} : walk F.ends q (e :: p) = some r ↔
      ∃ a, F.arc? e = some (q, a) ∧ walk F.ends a.nextstate p = some r := by
    rw [walk_cons_iff]
    constructor
    · rintro ⟨s, he, hp⟩
      obtain ⟨a, ha, rfl⟩ := VectorFst.ends_eq_some_iff.mp he
      exact ⟨a, ha, hp⟩
    · rintro ⟨a, ha, hp⟩
      exact ⟨_, VectorFst.ends_eq_some_iff.mpr ⟨a, ha, rfl⟩, hp⟩
  constructor
  · rintro (⟨hlen, hwalk, hL⟩ | ⟨hlen, ⟨r, hwalk, hr⟩, hL⟩)
    · obtain ⟨a, ha, hp⟩ := hstep.mp hwalk
      rw [VectorFst.istring_cons ha] at hL
      exact ⟨a, F.istring p, ha, hL, .inl ⟨Nat.le_of_succ_le_succ hlen, hp, rfl⟩⟩
    · obtain ⟨a, ha, hp⟩ := hstep.mp hwalk
      rw [VectorFst.istring_cons ha] at hL
      obtain ⟨t, ht⟩ := hL
      rw [List.append_assoc] at ht
      exact ⟨a, F.istring p ++ t, ha, ht,
        .inr ⟨Nat.succ.inj hlen, ⟨r, hp, hr⟩, List.prefix_append _ _⟩⟩
  · rintro ⟨a, L', ha, rfl, ⟨hlen, hp, rfl⟩ | ⟨hlen, ⟨r, hp, hr⟩, t, rfl⟩⟩
    · exact .inl ⟨Nat.succ_le_succ hlen, hstep.mpr ⟨a, ha, hp⟩, VectorFst.istring_cons ha p⟩
    · refine .inr ⟨congrArg Nat.succ hlen, ⟨r, hstep.mpr ⟨a, ha, hp⟩, hr⟩, t, ?_⟩
      rw [VectorFst.istring_cons ha, List.append_assoc]
      rfl

/-- The mass behind one arc. -/
noncomputable def arcMass (F : VectorFst W) (pr : ℕ → ℝ≥0∞) (q : ℕ) (L : List ℤ) (n : ℕ) (e : ℕ) :
    ℝ≥0∞ := totalWeight pr {p | e :: p ∈ live F q L (n + 1)}

theorem mass_succ (hq : q ≠ 0) (L : List ℤ) (n : ℕ) :
    mass F pr q L (n + 1) = tsum fun e => pr e * arcMass F pr q L n e := by
  have hnil : [] ∉ live F q L (n + 1) := by
    rintro (⟨-, h, -⟩ | ⟨h, -⟩)
    · exact hq (Option.some.inj h)
    · exact absurd h (by simp)
  rw [mass, totalWeight_eq, tsum_list, Set.indicator_of_notMem hnil, zero_add]
  refine tsum_congr fun e => ?_
  rw [arcMass, totalWeight_eq, ← ENNReal.tsum_mul_left]
  refine tsum_congr fun p => ?_
  by_cases hp : e :: p ∈ live F q L (n + 1)
  · have hp' : p ∈ {p | e :: p ∈ live F q L (n + 1)} := hp
    rw [Set.indicator_of_mem hp, Set.indicator_of_mem hp', pathWeight_cons]
  · have hp' : p ∉ {p | e :: p ∈ live F q L (n + 1)} := hp
    rw [Set.indicator_of_notMem hp, Set.indicator_of_notMem hp', mul_zero]

theorem arcMass_eq {e : ℕ} {a : Arc W} (ha : F.arc? e = some (q, a)) {L L' : List ℤ}
    (hL : VectorFst.word a.ilabel ++ L' = L) (n : ℕ) :
    arcMass F pr q L n e = mass F pr a.nextstate L' n := by
  have hset : {p | e :: p ∈ live F q L (n + 1)} = live F a.nextstate L' n := by
    ext p
    show e :: p ∈ live F q L (n + 1) ↔ p ∈ live F a.nextstate L' n
    rw [cons_mem_live]
    constructor
    · rintro ⟨b, M', hb, hM, hp⟩
      obtain rfl : a = b := by simpa using ha.symm.trans hb
      rwa [List.append_cancel_left (hM.trans hL.symm)] at hp
    · exact fun hp => ⟨a, L', ha, hL, hp⟩
  rw [arcMass, hset, mass]

theorem arcMass_eq_zero {e : ℕ} {L : List ℤ} (n : ℕ)
    (h : ∀ a L', F.arc? e = some (q, a) → VectorFst.word a.ilabel ++ L' ≠ L) :
    arcMass F pr q L n e = 0 := by
  rw [arcMass, totalWeight_eq]
  refine ENNReal.tsum_eq_zero.mpr fun p => Set.indicator_of_notMem ?_ _
  intro hp
  obtain ⟨a, L', ha, hL, -⟩ := cons_mem_live.mp hp
  exact h a L' ha hL

/-- A state keeps its mass if the arcs of one of its groups keep theirs and its other
arcs are dead ends. -/
theorem mass_succ_eq_one (hpr : F.Normalised pr) (hq : q ≠ 0) {L : List ℤ} {n : ℕ} {l : ℤ}
    (hne : (F.group q l).Nonempty) (hin : ∀ e ∈ F.group q l, arcMass F pr q L n e = 1)
    (hout : ∀ e ∉ F.group q l, arcMass F pr q L n e = 0) : mass F pr q L (n + 1) = 1 := by
  rw [mass_succ hq, ← hpr q l hne, tsum_subtype (F.group q l) pr]
  refine tsum_congr fun e => ?_
  by_cases he : e ∈ F.group q l
  · rw [hin e he, mul_one, Set.indicator_of_mem he]
  · rw [hout e he, mul_zero, Set.indicator_of_notMem he]

end Mass

/-! ### The states of the transducer -/

section States
variable [One W] {M : Machine W} {pr : ℕ → ℝ≥0∞}

theorem arc_isMove (h : contextualEdit W ord args = some M) (hc : IsKey args c) {e : ℕ} {a : Arc W}
    (ha : M.fst.arc? e = some (stateNum ord args c, a)) :
    ∃ m t, (m, t) ∈ moves args c ∧ a = moveArc W ord args c (m, t) := by
  obtain ⟨c', ⟨m, t⟩, hc', hq, hm, rfl⟩ := exists_move_of_arc? h ha
  obtain rfl := stateNum_inj ord hc hc' hq
  exact ⟨m, t, hm, rfl⟩

theorem mass_final (h : contextualEdit W ord args = some M) (n : ℕ) : mass M.fst pr 0 [] n = 1 := by
  rw [mass, totalWeight_eq, tsum_eq_single []]
  · have hnil : [] ∈ live M.fst 0 [] n := .inl ⟨Nat.zero_le n, rfl, rfl⟩
    rw [Set.indicator_of_mem hnil, pathWeight_nil]
  · intro p hp
    apply Set.indicator_of_notMem
    rintro (⟨-, hw, -⟩ | ⟨-, ⟨r, hw, -⟩, -⟩)
    · exact hp (walk_zero h hw).1
    · exact hp (walk_zero h hw).1

/-- A consumed symbol is the next of the pending upper string. -/
theorem exists_pending_of_consume (hV : args.Valid) (hr : 1 ≤ args.sizes.urcMax)
    (hb : isBold args.sizes c) {rest x : List Sym} (hp : Pending args c rest x) {u : Sym}
    {l : List Sym} (hurc : c.urc = u :: l) (hs : u ≠ stopStartChar) :
    ∃ y, ∀ d : Context, d.urc = bump2 c.urc → Pending args d rest y := by
  have hlen := (isBold_iff.mp hb).2.1
  rcases x with _ | ⟨u', y⟩
  · have hu : u ∈ padding args := by simp [← ((urc_of_full hlen hr hp).1 rfl).1, hurc]
    exact absurd (List.eq_of_mem_replicate hu) hs
  · exact ⟨y, (consume_mem_moves hV hr hb hp).2.2⟩

/-- With a full right context the transducer moves without reading. -/
theorem mass_bold (h : contextualEdit W ord args = some M) (hV : args.Valid) (hne : args.V2 ≠ [])
    (hr : 1 ≤ args.sizes.urcMax) (hpr : M.fst.Normalised pr) {n : ℕ} {rest x : List Sym}
    (hc : IsKey args c) (hb : isBold args.sizes c) (hp : Pending args c rest x)
    (ih : ∀ m d y, (m, some d) ∈ moves args c → Pending args d rest y →
      mass M.fst pr (stateNum ord args d) (rest.map (idIn args)) n = 1) :
    mass M.fst pr (stateNum ord args c) (rest.map (idIn args)) (n + 1) = 1 := by
  have hlen := (isBold_iff.mp hb).2.1
  have hpos : stateNum ord args c ≠ 0 := by have := stateNum_pos ord hc; omega
  have hlabel {m t} (hm : (m, t) ∈ moves args c) : m.ilabel args = 0 := by
    by_contra hi
    obtain ⟨v, rfl⟩ := (ilabel_ne_zero_iff hV.unreserved hm).mp hi
    exact (mem_moves_abs.mp hm).1 hb
  -- every move of a full right context leads to a state whose mass is 1
  have hmove {m t} (hm : (m, t) ∈ moves args c) :
      mass M.fst pr (targetNum ord args t) (rest.map (idIn args)) n = 1 := by
    cases m with
    | final =>
      obtain ⟨rfl, -, hall⟩ := mem_moves_final.mp hm
      have hx : x = [] := by
        rcases x with _ | ⟨u, x⟩
        · rfl
        · obtain ⟨l, hurc, -⟩ := (urc_of_full hlen hr hp).2 u x rfl
          have hu : u = stopStartChar := hall u (by simp [hurc])
          exact absurd (hu ▸ hp.1 u (by simp)) hV.upper.sharp
      rw [((urc_of_full hlen hr hp).1 hx).2]
      exact mass_final h n
    | ins v =>
      obtain ⟨-, -, rfl⟩ := mem_moves_ins.mp hm
      exact ih _ _ x hm hp
    | sub v =>
      obtain ⟨-, -, u, l, hurc, hs, rfl⟩ := mem_moves_sub.mp hm
      obtain ⟨y, hy⟩ := exists_pending_of_consume hV hr hb hp hurc hs
      exact ih _ _ y hm (hy _ rfl)
    | del =>
      obtain ⟨-, u, l, hurc, hs, rfl⟩ := mem_moves_del.mp hm
      obtain ⟨y, hy⟩ := exists_pending_of_consume hV hr hb hp hurc hs
      exact ih _ _ y hm (hy _ rfl)
    | abs v => exact absurd hb (mem_moves_abs.mp hm).1
  apply mass_succ_eq_one hpr hpos (l := 0)
  · obtain ⟨v, hv⟩ := List.exists_mem_of_ne_nil _ hne
    obtain ⟨e, he⟩ := exists_arc?_of_move h hc (mem_moves_ins.mpr ⟨hb, hv, rfl⟩)
    exact ⟨e, _, he, rfl⟩
  · rintro e ⟨a, ha, hi⟩
    obtain ⟨m, t, hm, rfl⟩ := arc_isMove h hc ha
    rw [arcMass_eq ha (by rw [hi]; rfl)]
    exact hmove hm
  · intro e he
    apply arcMass_eq_zero
    intro a L' ha
    obtain ⟨m, t, hm, rfl⟩ := arc_isMove h hc ha
    exact absurd ⟨_, ha, hlabel hm⟩ he

/-- With room in the right context the transducer reads the next input symbol. -/
theorem mass_nonBold (h : contextualEdit W ord args = some M) (hV : args.Valid)
    (hr : 1 ≤ args.sizes.urcMax) (hpr : M.fst.Normalised pr) {n : ℕ} {v : Sym} {rest x : List Sym}
    (hc : IsKey args c) (hb : ¬ isBold args.sizes c) (hlt : c.urc.length < args.sizes.urcMax)
    (hp : Pending args c (v :: rest) x)
    (ih : mass M.fst pr (stateNum ord args (absKey args.sizes c v)) (rest.map (idIn args)) n = 1) :
    mass M.fst pr (stateNum ord args c) ((v :: rest).map (idIn args)) (n + 1) = 1 := by
  have hpos : stateNum ord args c ≠ 0 := by have := stateNum_pos ord hc; omega
  have hmem := (abs_mem_moves hV hr hb hlt hp).1
  have hv := (mem_moves_abs.mp hmem).2.1
  have habs {m t} (hm : (m, t) ∈ moves args c) : ∃ w, m = .abs w := by
    cases m with
    | final =>
      obtain ⟨-, hlen, -⟩ := mem_moves_final.mp hm
      omega
    | ins w => exact absurd (mem_moves_ins.mp hm).1 hb
    | sub w => exact absurd (mem_moves_sub.mp hm).1 hb
    | del => exact absurd (mem_moves_del.mp hm).1 hb
    | abs w => exact ⟨w, rfl⟩
  have hword {w : Sym} (hw : w ∈ args.V1 ∨ w = stopStartChar) : VectorFst.word (idIn args w) =
      [idIn args w] :=
    if_neg (idIn_ne_zero hV.unreserved hw)
  apply mass_succ_eq_one hpr hpos (l := idIn args v)
  · obtain ⟨e, he⟩ := exists_arc?_of_move h hc hmem
    exact ⟨e, _, he, rfl⟩
  · rintro e ⟨a, ha, hi⟩
    obtain ⟨m, t, hm, rfl⟩ := arc_isMove h hc ha
    obtain ⟨w, rfl⟩ := habs hm
    obtain ⟨-, hw, -, -, rfl⟩ := mem_moves_abs.mp hm
    obtain rfl := idIn_inj hV.unreserved hw hv hi
    rw [arcMass_eq ha (by rw [hi, hword hv]; rfl)]
    exact ih
  · intro e he
    apply arcMass_eq_zero
    intro a L' ha hL
    obtain ⟨m, t, hm, rfl⟩ := arc_isMove h hc ha
    obtain ⟨w, rfl⟩ := habs hm
    have hL' : VectorFst.word (idIn args w) ++ L' = idIn args v :: rest.map (idIn args) := hL
    rw [hword (mem_moves_abs.mp hm).2.1] at hL'
    exact he ⟨_, ha, (List.cons.inj hL').1⟩

/-- However far the paths go, no mass is lost. -/
theorem mass_state (h : contextualEdit W ord args = some M) (hV : args.Valid) (hne : args.V2 ≠ [])
    (hu : args.sizes.ulcMax ≤ 1) (hl : args.sizes.llcMax ≤ 1) (hr : 1 ≤ args.sizes.urcMax)
    (hpr : M.fst.Normalised pr) (n : ℕ) {rest x : List Sym} (hc : IsKey args c)
    (hp : Pending args c rest x) :
    mass M.fst pr (stateNum ord args c) (rest.map (idIn args)) n = 1 := by
  have hsz : Completes args := .inl hu
  induction n generalizing c rest x with
  | zero =>
    have hpos := stateNum_pos ord hc
    exact mass_zero (by omega) _
  | succ n ih =>
    by_cases hb : isBold args.sizes c
    · exact mass_bold h hV hne hr hpr hc hb hp fun m d y hm hy => ih (target_isKey hsz hc hm) hy
    · have hlt := length_urc_lt hu hl hc hb
      rcases rest with _ | ⟨v, rest⟩
      · have hlen := congrArg List.length hp.2
        simp [padding] at hlen
        omega
      · obtain ⟨hm, hy⟩ := abs_mem_moves hV hr hb hlt hp
        exact mass_nonBold h hV hr hpr hc hb hlt hp (ih (target_isKey hsz hc hm) hy)

/-! ### The distribution -/

theorem spells_iff (hV : args.Valid) {u : List Sym} (hu : ∀ v ∈ u, v ∈ args.V1 ∨ v = stopStartChar)
    {labels : List ℤ} : Spells args.symsIn labels u ↔ labels = u.map (idIn args) := by
  constructor
  · intro hs
    induction labels generalizing u with
    | nil =>
      rcases u with _ | ⟨v, u⟩
      · rfl
      · exact absurd hs (by simp [Spells])
    | cons i labels ih =>
      rcases u with _ | ⟨v, u⟩
      · exact absurd hs (by simp [Spells])
      · obtain ⟨hi, hs⟩ := List.cons.inj hs
        have hid : symbolId args.symsIn v = some i := symbolId_of_findSymbol hi
        rw [symbolId_idIn (hu v (by simp))] at hid
        rw [ih (fun w hw => hu w (by simp [hw])) hs, List.map_cons, Option.some.inj hid]
  · rintro rfl
    exact spells_map_id fun v hv => findSymbol_idIn hV.unreserved (hu v hv)

theorem finished_union_unfinished (h : contextualEdit W ord args = some M) (hV : args.Valid)
    {u : List Sym} (hu : ∀ v ∈ u, v ∈ args.V1 ∨ v = stopStartChar) (n : ℕ) :
    M.finished args u n = done M.fst (stateNum ord args (startKey args.sizes))
      (u.map (idIn args)) n ∧
    M.unfinished args u n =
      underway M.fst (stateNum ord args (startKey args.sizes)) (u.map (idIn args)) n := by
  constructor
  · ext p
    show (p.length ≤ n ∧ (∃ q q₀, M.fst.start = some q₀ ∧ walk M.fst.ends q₀ p = some q ∧ _) ∧ _) ↔
      (p.length ≤ n ∧ _ ∧ _)
    simp only [machine_start h, final?_isSome_iff h, spells_iff hV hu, Option.some.injEq]
    constructor
    · rintro ⟨hlen, ⟨q, q₀, rfl, hw, rfl⟩, hs⟩
      exact ⟨hlen, hw, hs⟩
    · rintro ⟨hlen, hw, hs⟩
      exact ⟨hlen, ⟨0, _, rfl, hw, rfl⟩, hs⟩
  · ext p
    show (p.length = n ∧ (∃ q₀ q, M.fst.start = some q₀ ∧ _) ∧ ∃ u', u' <+: u ∧ _) ↔
      (p.length = n ∧ _ ∧ _)
    simp only [machine_start h, Option.some.injEq]
    constructor
    · rintro ⟨hlen, ⟨q₀, q, rfl, hw, hq⟩, u', hpre, hs⟩
      rw [spells_iff hV fun v hv => hu v (hpre.subset hv)] at hs
      exact ⟨hlen, ⟨q, hw, hq⟩, hs ▸ hpre.map _⟩
    · rintro ⟨hlen, ⟨q, hw, hq⟩, hpre⟩
      refine ⟨hlen, ⟨_, q, rfl, hw, hq⟩, u.take (M.fst.istring p).length, List.take_prefix _ _, ?_⟩
      rw [spells_iff hV fun v hv => hu v (List.mem_of_mem_take hv), List.map_take]
      exact List.prefix_iff_eq_take.mp hpre

end States

/-- The paths of the transducer that read a padded upper string form a probability
distribution: what is finished within `n` arcs and what is under way after `n`
arcs add up to 1. -/
theorem conditional_distribution (W : Type*) [One W] (ord : HashOrder) (args : Args)
    (hV : args.Valid) (hne : args.V2 ≠ []) (hu : args.sizes.ulcMax ≤ 1)
    (hl : args.sizes.llcMax ≤ 1) (hr : 1 ≤ args.sizes.urcMax) :
    ∃ M, contextualEdit W ord args = some M ∧ ∀ pr : ℕ → ℝ≥0∞, M.fst.Normalised pr →
      ∀ x : List Sym, (∀ s ∈ x, s ∈ args.V1) → ∀ n : ℕ,
        totalWeight pr (M.finished args (x ++ padding args) n) +
          totalWeight pr (M.unfinished args (x ++ padding args) n) = 1 := by
  obtain ⟨M, h⟩ := exists_contextualEdit W ord (.inl hu : Completes args)
  refine ⟨M, h, fun pr hpr x hx n => ?_⟩
  have hmem : ∀ v ∈ x ++ padding args, v ∈ args.V1 ∨ v = stopStartChar := by
    intro v hv
    rcases List.mem_append.mp hv with hv | hv
    · exact .inl (hx v hv)
    · exact .inr (List.eq_of_mem_replicate hv)
  obtain ⟨hfin, hunf⟩ := finished_union_unfinished h hV hmem n
  have hmass := mass_state h hV hne hu hl hr hpr n startKey_isKey (pending_start.mpr ⟨hx, rfl⟩)
  rwa [mass, live, totalWeight_union (done_disjoint_underway _ _ _), ← hfin, ← hunf] at hmass

/-- The uniform distribution on every group. -/
noncomputable def uniform (F : VectorFst W) (e : ℕ) : ℝ≥0∞ :=
  (F.arc? e).elim 0 fun p => (ENat.card (F.group p.1 p.2.ilabel) : ℝ≥0∞)⁻¹

theorem uniform_normalised (F : VectorFst W) : F.Normalised (uniform F) := by
  intro q l hne
  have hconst (e : F.group q l) : uniform F e = (ENat.card (F.group q l) : ℝ≥0∞)⁻¹ := by
    obtain ⟨a, ha, rfl⟩ := e.2
    rw [uniform, ha]
    rfl
  have hfin : (F.group q l).Finite := F.group_finite q l
  simp only [hconst]
  rw [ENNReal.tsum_const]
  apply ENNReal.mul_inv_cancel
  · simpa using hne.ne_empty
  · simpa using hfin

/-- The machine of a one-symbol right window over an upper alphabet that names the empty
word: its ABS arc for that name, arc 5, reads nothing. -/
def emptyNameMachine : Machine ℕ where
  fst := ⟨some 3, [⟨some 1, []⟩, ⟨none, [⟨0, 2, 1, 1⟩, ⟨0, 2, 1, 3⟩, ⟨0, 0, 1, 3⟩]⟩,
    ⟨none, [⟨0, 0, 1, 0⟩, ⟨0, 2, 1, 2⟩]⟩, ⟨none, [⟨0, 0, 1, 1⟩, ⟨1, 0, 1, 2⟩]⟩]⟩
  arcMap := [((3, 2, 1, 0), .ABS), ((3, 1, 0, 0), .ABS), ((2, 2, 0, 2), .INS), ((1, 3, 0, 0), .DEL),
    ((1, 3, 0, 2), .SUB), ((1, 1, 0, 2), .INS), ((2, 0, 0, 0), .FINAL)]
  stateToContext := [⟨[], epsilonTable.names, []⟩, ⟨[], ["#"], []⟩, ⟨[], [], []⟩]

theorem contextualEdit_emptyName :
    contextualEdit ℕ insertionOrder (epsilonArgs ⟨0, 1, 0⟩) = some emptyNameMachine := rfl

/-- Its start state has epsilon mass beside symbol mass. -/
theorem not_conditional_distribution : ¬ ∀ (ord : HashOrder) (args : Args), args.Alphabets →
    args.V2 ≠ [] →
    args.sizes.ulcMax ≤ 1 → args.sizes.llcMax ≤ 1 → 1 ≤ args.sizes.urcMax →
    ∃ M, contextualEdit ℕ ord args = some M ∧ ∀ pr : ℕ → ℝ≥0∞, M.fst.Normalised pr →
      ∀ x : List Sym, (∀ s ∈ x, s ∈ args.V1) → ∀ n : ℕ,
        totalWeight pr (M.finished args (x ++ padding args) n) +
          totalWeight pr (M.unfinished args (x ++ padding args) n) = 1 := by
  intro hall
  obtain ⟨M, h, hdist⟩ := hall insertionOrder (epsilonArgs ⟨0, 1, 0⟩) (epsilonArgs_alphabets _)
    (by simp only [epsilonArgs]; decide) (by decide) (by decide) (by decide)
  obtain rfl : emptyNameMachine = M := Option.some.inj (contextualEdit_emptyName.symm.trans h)
  have hpr := uniform_normalised emptyNameMachine.fst
  have hsum := hdist _ hpr [] (by simp) 1
  -- each ABS arc of the start state is alone in its group
  have hone {e : ℕ} {l : ℤ} (he : emptyNameMachine.fst.groupArcs 3 l = [e]) :
      uniform emptyNameMachine.fst e = 1 := by
    have hmem : e ∈ emptyNameMachine.fst.group 3 l :=
      VectorFst.mem_groupArcs.mp (by rw [he]; exact List.mem_singleton_self e)
    have hgroup := VectorFst.tsum_group emptyNameMachine.fst 3 l (uniform emptyNameMachine.fst)
    rw [hpr 3 l ⟨e, hmem⟩, he] at hgroup
    simpa using hgroup.symm
  set U := emptyNameMachine.unfinished (epsilonArgs ⟨0, 1, 0⟩)
    ([] ++ padding (epsilonArgs ⟨0, 1, 0⟩)) 1
  have hread : [5] ∈ U := ⟨rfl, ⟨3, 1, rfl, rfl, by decide⟩, [], List.nil_prefix, rfl⟩
  have hread' : [6] ∈ U := ⟨rfl, ⟨3, 2, rfl, rfl, by decide⟩, ["#"], List.prefix_refl _, rfl⟩
  have htwo : 2 = ∑ p ∈ {[5], [6]}, U.indicator (pathWeight (uniform emptyNameMachine.fst)) p := by
    rw [Finset.sum_pair (by decide), Set.indicator_of_mem hread, Set.indicator_of_mem hread',
      pathWeight_cons, pathWeight_cons, pathWeight_nil, hone (e := 5) (l := 0) rfl,
        hone (e := 6) (l := 1) rfl]
    norm_num
  have hle : (2 : ℝ≥0∞) ≤ 1 := by
    rw [← hsum, htwo, totalWeight_eq, totalWeight_eq]
    exact (ENNReal.sum_le_tsum _).trans le_add_self
  exact absurd hle (by norm_num)

theorem conditional_distribution_one_two_one :
    ∃ M, contextualEdit ℕ insertionOrder (smallArgs ⟨1, 2, 1⟩) = some M ∧
      totalWeight (uniform M.fst) (M.finished (smallArgs ⟨1, 2, 1⟩) ["a", "#", "#"] 7) +
        totalWeight (uniform M.fst) (M.unfinished (smallArgs ⟨1, 2, 1⟩) ["a", "#", "#"] 7) = 1 := by
  obtain ⟨M, h, hdist⟩ := conditional_distribution ℕ insertionOrder (smallArgs ⟨1, 2, 1⟩)
    (smallArgs_valid _) (by decide) le_rfl le_rfl (by decide)
  exact ⟨M, h, hdist _ (uniform_normalised _) ["a"] (by decide) 7⟩

end StochasticEdit.Generator
