import StochasticEdit.Evaluation.Model
import StochasticEdit.Trainer.Lattices

/-! Decoded arc ids. `map_to_feature_arcs` stores the number of an arc plus one in its
weight, the evaluator puts that number as it is on the arcs of the lattice, and the
generator numbers its arcs from zero: every token of an alignment is the id of the arc
behind the one that was taken. -/

namespace StochasticEdit.Evaluation

open Wfst Trainer Generator

/-! ### Numbers as texts -/

theorem toString_natCast (k : ℕ) : toString (k : ℤ) = toString k := rfl

theorem toList_toString (k : ℕ) : (toString k).toList = Nat.toDigits 10 k := Nat.toList_repr

theorem isSpace_of_isDigit {c : Char} (h : c.isDigit) : isSpace c = false := by
  have hval : 48 ≤ c.toNat := by
    simp only [Char.isDigit, Bool.and_eq_true, decide_eq_true_eq] at h
    exact h.1
  have hne : c ≠ ' ' := by
    rintro rfl
    exact absurd hval (by decide)
  have hgt : ¬ c.toNat ≤ 13 := by omega
  simp [isSpace, hne, hgt]

theorem atoi_of_toList {s : Sym} {k : ℕ} {t : List Char} (h : s.toList = Nat.toDigits 10 k ++ t)
    (ht : t.takeWhile Char.isDigit = []) : atoi s = k := by
  have hdigit : ∀ c ∈ Nat.toDigits 10 k, c.isDigit := fun c hc =>
    Nat.isDigit_of_mem_toDigits (by decide) (by decide) hc
  have hnumber : leadingNumber s.toList = k := by
    rw [leadingNumber, h, List.takeWhile_append_of_pos hdigit, ht, List.append_nil,
      Nat.ofDigitChars_ten_toDigits]
  obtain ⟨c, l, hcl⟩ := List.exists_cons_of_ne_nil (Nat.toDigits_ne_nil (n := k) (b := 10))
  have hc : c.isDigit := hdigit c (by simp [hcl])
  have hspace : isSpace c = false := isSpace_of_isDigit hc
  have hdrop : s.toList.dropWhile isSpace = s.toList := by
    rw [h, hcl, List.cons_append, List.dropWhile_cons_of_neg (by simp [hspace])]
  rw [atoi, hdrop]
  split
  next heq =>
    rw [h, hcl] at heq
    obtain rfl : c = '-' := (List.cons.inj heq).1
    exact absurd hc (by decide)
  next heq =>
    rw [h, hcl] at heq
    obtain rfl : c = '+' := (List.cons.inj heq).1
    exact absurd hc (by decide)
  next => exact hnumber

/-- `atoi` reads the number that was written. -/
theorem atoi_toString (k : ℕ) : atoi (toString k) = k :=
  atoi_of_toList (t := []) (by rw [toList_toString, List.append_nil]) rfl

theorem atoi_toString_blank (k : ℕ) : atoi (toString k ++ " ") = k :=
  atoi_of_toList (t := [' ']) (by rw [String.toList_append, toList_toString]; rfl) rfl

theorem toString_blank_inj {k k' : ℕ} (h : toString k ++ " " = toString k' ++ " ") : k = k' := by
  have hatoi := congrArg atoi h
  rw [atoi_toString_blank, atoi_toString_blank] at hatoi
  exact Int.ofNat_inj.mp hatoi

/-! ### The table of arc ids -/

theorem mem_arcIdSymbolTable {n k : ℕ} {v : ℤ} :
    (toString k ++ " ", v) ∈ arcIdSymbolTable n ↔ k < n ∧ v = (k + 1 : ℕ) := by
  have heps : toString k ++ " " ≠ "<eps>" := by
    intro h
    have hlist := congrArg String.toList h
    rw [String.toList_append, toList_toString] at hlist
    have hlast := congrArg List.getLast? hlist
    rw [show " ".toList = [' '] from rfl, List.getLast?_concat] at hlast
    exact absurd hlast (by decide)
  simp only [arcIdSymbolTable, List.mem_cons, Prod.mk.injEq, heps, false_and, false_or,
    List.mem_map, List.mem_range'_1]
  constructor
  · rintro ⟨i, hi, hkey, rfl⟩
    obtain ⟨j, rfl⟩ := Nat.exists_eq_add_of_le' hi.1
    have hj : ((j + 1 : ℕ) : ℤ) - 1 = (j : ℤ) := by omega
    rw [hj, toString_natCast] at hkey
    obtain rfl := toString_blank_inj hkey
    exact ⟨by omega, rfl⟩
  · rintro ⟨hk, rfl⟩
    have hj : ((k + 1 : ℕ) : ℤ) - 1 = (k : ℤ) := by omega
    exact ⟨k + 1, by omega, by rw [hj, toString_natCast], rfl⟩

theorem findKey_arcIdSymbolTable {n k : ℕ} (h : k < n) :
    findKey (arcIdSymbolTable n) (toString (k : ℤ) ++ " ") = (k + 1 : ℕ) := by
  rw [toString_natCast]
  have hmem : (toString k ++ " ", ((k + 1 : ℕ) : ℤ)) ∈ arcIdSymbolTable n :=
    mem_arcIdSymbolTable.mpr ⟨h, rfl⟩
  have hsome : ((arcIdSymbolTable n).lookup (toString k ++ " ")).isSome :=
    lookup_isSome_iff_mem.mpr (List.mem_map_of_mem hmem)
  obtain ⟨v, hv⟩ := Option.isSome_iff_exists.mp hsome
  rw [findKey, symbolId, hv, Option.getD_some]
  exact (mem_arcIdSymbolTable.mp (mem_of_lookup_eq_some hv)).2

theorem findText_arcIdSymbolTable {n k : ℕ} (h : k < n) :
    findText (arcIdSymbolTable n) ((k + 1 : ℕ) : ℤ) = toString k ++ " " := by
  have hmem : (toString k ++ " ", ((k + 1 : ℕ) : ℤ)) ∈ arcIdSymbolTable n :=
    mem_arcIdSymbolTable.mpr ⟨h, rfl⟩
  have hsome : ((arcIdSymbolTable n).find? fun p => p.2 = ((k + 1 : ℕ) : ℤ)).isSome :=
    List.find?_isSome.mpr ⟨_, hmem, by simp⟩
  obtain ⟨⟨t, v⟩, hp⟩ := Option.isSome_iff_exists.mp hsome
  obtain rfl : v = ((k + 1 : ℕ) : ℤ) := by simpa using List.find?_some hp
  have ht : (t, ((k + 1 : ℕ) : ℤ)) ∈ arcIdSymbolTable n := List.mem_of_find?_eq_some hp
  rw [findText, findSymbol, hp]
  show t = _
  simp only [arcIdSymbolTable, List.mem_cons, Prod.mk.injEq, List.mem_map] at ht
  obtain ⟨-, h0⟩ | ⟨i, -, rfl, hi⟩ := ht
  · omega
  · have hk : (i : ℤ) - 1 = (k : ℤ) := by omega
    rw [hk, toString_natCast]

/-! ### Relabelling -/

/-- The evaluator keeps the number that the trainer takes one off. -/
theorem idPass_eq (tmp : ℕ) (m : ℕ → ℤ) (arcs : List (Arc FeatureWeight)) :
    idPass tmp m arcs = fun i => mapperPass tmp (fun j => m j - 1) arcs i + 1 := by
  induction arcs generalizing tmp m with
  | nil =>
    funext i
    rw [idPass, mapperPass, sub_add_cancel]
  | cons a arcs ih =>
    rw [idPass, mapperPass, ih]
    have hupdate : (fun j => Function.update m tmp (roundExpNeg (value a.weight.value2)) j - 1) =
        Function.update (fun j => m j - 1) tmp (roundExpNeg (value a.weight.value2) - 1) := by
      funext j
      by_cases hj : j = tmp
      · rw [hj, Function.update_self, Function.update_self]
      · rw [Function.update_of_ne hj, Function.update_of_ne hj]
    rw [hupdate]

section Relabel
variable {W : Type*} {table : List (Sym × ℤ)}

/-- An arc with the key of its decoded id as both labels. -/
noncomputable def relabelled (table : List (Sym × ℤ)) (f : Origin → FeatureWeight) (g : Origin → W)
    (a : Arc Origin) : Arc W :=
  let key := findKey table (toString (roundExpNeg (value (f a.weight).value2)) ++ " ")
  ⟨key, key, g a.weight, a.nextstate⟩

theorem relabelPass_eq {f : Origin → FeatureWeight} {g : Origin → W} {arcMapper : ℕ → ℤ} (e : ℕ)
    (arcs : List (Arc Origin))
    (h : ∀ k a, arcs[k]? = some a → arcMapper (e + k) = roundExpNeg (value (f a.weight).value2)) :
    relabelPass table arcMapper e (arcs.map (Arc.map g)) = arcs.map (relabelled table f g) := by
  induction arcs generalizing e with
  | nil => rfl
  | cons a arcs ih =>
    have hfirst : arcMapper e = roundExpNeg (value (f a.weight).value2) := h 0 a rfl
    rw [List.map_cons, relabelPass, hfirst, List.map_cons, ih (e + 1)]
    · rfl
    · intro k b hb
      rw [show e + 1 + k = e + (k + 1) by omega]
      exact h (k + 1) b (by simpa using hb)

/-- On two lattices with the same arcs the loops relabel every arc by its own id. -/
theorem relabelStates_eq (f g : Origin → FeatureWeight) (f' g' : Origin → W) (e : ℕ)
    (ss : List (State Origin)) :
    relabelStates table e (ss.map (State.map f g)) (ss.map (State.map f' g')) =
      some (ss.map fun s => ⟨s.final.map g', s.arcs.map (relabelled table f f')⟩) := by
  induction ss generalizing e with
  | nil => rfl
  | cons s ss ih =>
    have hpass : relabelPass table (idPass e (fun _ => 0) (s.arcs.map (Arc.map f))) e
        (s.arcs.map (Arc.map f')) = s.arcs.map (relabelled table f f') := by
      apply relabelPass_eq
      intro k a ha
      have hk : (s.arcs.map (Arc.map f))[k]? = some (a.map f) := by rw [List.getElem?_map, ha]; rfl
      rw [idPass_eq]
      simp only [mapperPass_eq _ hk, sub_add_cancel]
      rfl
    rw [List.map_cons, List.map_cons, relabelStates, State.map, State.map, hpass, ih]
    rfl

end Relabel

/-! ### The decoded machines -/

section Machines
variable {comp : Composer} {F x y : VectorFst LogWeight} {isymbols osymbols : List (Sym × ℤ)}
  {n : ℕ} {testData : List (VectorFst LogWeight × VectorFst LogWeight)}

/-- The machine arc that an arc of the medial machine stands for. -/
def medialOwner (comp : Composer) (F x : VectorFst LogWeight) (e : ℕ) : ℕ :=
  (((medialOrigins comp F x).arc? e).bind fun r => r.2.weight.2).getD 0

/-- The weight that two machines give an arc of their composition. -/
noncomputable def pairWeight {W : Type*} [One W] [Mul W] (A B : VectorFst W) (o : Origin) : W :=
  A.weightAt o.1 * B.weightAt o.2

noncomputable def pairFinal {W : Type*} [One W] [Mul W] (A B : VectorFst W) (o : Origin) : W :=
  A.finalAt o.1 * B.finalAt o.2

/-- The second weight of a medial arc is the number of its machine arc plus one. -/
theorem decode_medial (hx : IsAcceptor x)
    (hmedial : Composes x.shape F.shape (medialOrigins comp F x)) {e q : ℕ} {a : Arc Origin}
    (ha : (medialOrigins comp F x).arc? e = some (q, a)) : medialOwner comp F x e < F.numArcs ∧
      roundExpNeg
        (value (pairWeight (mapToFeatureArcs x true) (mapToFeatureArcs F false) a.weight).value2) =
        (medialOwner comp F x e + 1 : ℕ) := by
  obtain ⟨f, hf, hlt⟩ := hx.medial_origin hmedial ha
  have howner : medialOwner comp F x e = f := by
    rw [medialOwner, ha, Option.bind_some, hf]
    rfl
  have hvalue2 (w : LogWeight) : ((1 : FeatureWeight) * ⟨1, w⟩).value2 = w := by simp
  rw [howner, pairWeight, hf, weightAt_mapToFeatureArcs_true,
    weightAt_mapToFeatureArcs_false hlt, hvalue2, roundExpNeg_value]
  exact ⟨hlt, rfl⟩

theorem shape_toStd (A : VectorFst LogWeight) : (toStd A).shape = A.shape := A.shape_map _ _

/-- `alignment_decode` relabels the arcs of the medial machine. -/
theorem alignmentDecode_eq (hF : RealFinals F) (hx : RealFinals x) :
    (evaluator F isymbols osymbols n testData).alignmentDecode comp x =
      some ((medialOrigins comp F x).mapArcs
        (relabelled (arcIdSymbolTable n)
          (pairWeight (mapToFeatureArcs x true) (mapToFeatureArcs F false))
          (pairWeight (toStd x) (toStd F)))
        (pairFinal (toStd x) (toStd F))) := by
  simp only [Evaluator.alignmentDecode, evaluator, VectorFst.compose, shape_mapToFeatureArcs hx,
    shape_mapToFeatureArcs hF, shape_toStd]
  simp only [VectorFst.map]
  rw [relabelStates_eq]
  rfl

/-- `alignment_decode_forced` relabels the arcs of the lattice. -/
theorem alignmentDecodeForced_eq (h : Composable comp F (x, y)) :
    (evaluator F isymbols osymbols n testData).alignmentDecodeForced comp x y =
      some ((latticeOrigins comp F (x, y)).mapArcs
        (relabelled (arcIdSymbolTable n)
          (pairWeight (VectorFst.compose comp (mapToFeatureArcs x true) (mapToFeatureArcs F false))
            (mapToFeatureArcs y true))
          (pairWeight (VectorFst.compose comp (toStd x) (toStd F)) (toStd y)))
        (pairFinal (VectorFst.compose comp (toStd x) (toStd F)) (toStd y))) := by
  have hfeature := featureLattice_eq h.composed
  rw [featureLattice] at hfeature
  have hstd : VectorFst.compose comp (VectorFst.compose comp (toStd x) (toStd F)) (toStd y) =
      (latticeOrigins comp F (x, y)).map
        (pairWeight (VectorFst.compose comp (toStd x) (toStd F)) (toStd y))
        (pairFinal (VectorFst.compose comp (toStd x) (toStd F)) (toStd y)) := by
    rw [VectorFst.compose, shape_compose, shape_toStd, shape_toStd, shape_toStd]
    rfl
  simp only [Evaluator.alignmentDecodeForced, evaluator]
  rw [hfeature, hstd]
  simp only [VectorFst.map]
  rw [relabelStates_eq]
  rfl

/-- The token of an arc is its decoded id. -/
theorem atoi_token {S : VectorFst Origin} {f : Origin → FeatureWeight} {f' g' : Origin → StdWeight}
    {e q k : ℕ} {a : Arc Origin} (ha : S.arc? e = some (q, a))
    (hk : roundExpNeg (value (f a.weight).value2) = k) (hn : k < n) :
    atoi ((evaluator F isymbols osymbols n testData).token
      (S.mapArcs (relabelled (arcIdSymbolTable n) f f') g') e) = k := by
  have hkey : (S.mapArcs (relabelled (arcIdSymbolTable n) f f') g').olabel? e =
      some ((k + 1 : ℕ) : ℤ) := by
    rw [VectorFst.olabel?, VectorFst.arc?_mapArcs, ha, ← findKey_arcIdSymbolTable hn, ← hk]
    rfl
  have hne : ((k + 1 : ℕ) : ℤ) ≠ 0 := by omega
  rw [Evaluator.token, hkey]
  simp only [if_pos hne]
  show atoi (findText (arcIdSymbolTable n) ((k + 1 : ℕ) : ℤ)) = k
  rw [findText_arcIdSymbolTable hn, atoi_toString_blank]

end Machines

/-! ### What the tokens name -/

section Names
variable {comp : Composer} {F x y : VectorFst LogWeight} (isymbols osymbols : List (Sym × ℤ))
  (n : ℕ) (testData : List (VectorFst LogWeight × VectorFst LogWeight))

theorem exists_arc_of_accepts {S : VectorFst Origin} {f : Arc Origin → Arc StdWeight}
    {g : Origin → StdWeight} (hf : ∀ a, (f a).nextstate = a.nextstate) {p : List ℕ}
    (hp : (S.mapArcs f g).Accepts p) {e : ℕ} (he : e ∈ p) : ∃ q a, S.arc? e = some (q, a) := by
  obtain ⟨r, hr⟩ := hp
  exact VectorFst.exists_arc_of_mem ((S.acceptsAt_mapArcs g hf).mp hr) he

/-- `alignment_decode` emits the number of the arc behind the one that was taken. -/
theorem atoi_token_alignmentDecode (hF : RealFinals F) (hx : IsAcceptor x)
    (hmedial : Composes x.shape F.shape (medialOrigins comp F x)) :
    ∃ final, (evaluator F isymbols osymbols n testData).alignmentDecode comp x = some final ∧
      ∀ p, final.Accepts p → ∀ e ∈ p, medialOwner comp F x e < F.numArcs ∧
        (medialOwner comp F x e + 1 < n →
          atoi ((evaluator F isymbols osymbols n testData).token final e) =
          (medialOwner comp F x e + 1 : ℕ)) := by
  refine ⟨_, alignmentDecode_eq hF hx.final, fun p hp e he => ?_⟩
  obtain ⟨q, a, ha⟩ := exists_arc_of_accepts (fun _ => rfl) hp he
  obtain ⟨hlt, hdecode⟩ := decode_medial hx hmedial ha
  exact ⟨hlt, fun hn => atoi_token ha hdecode hn⟩

/-- So does `alignment_decode_forced`. -/
theorem atoi_token_alignmentDecodeForced (h : Composable comp F (x, y)) : ∃ final,
      (evaluator F isymbols osymbols n testData).alignmentDecodeForced comp x y = some final ∧
      ∀ p, final.Accepts p → ∀ e ∈ p, owner comp F (x, y) e < F.numArcs ∧
        (owner comp F (x, y) e + 1 < n →
          atoi ((evaluator F isymbols osymbols n testData).token final e) =
          (owner comp F (x, y) e + 1 : ℕ)) := by
  refine ⟨_, alignmentDecodeForced_eq h, fun p hp e he => ?_⟩
  obtain ⟨q, a, ha⟩ := exists_arc_of_accepts (fun _ => rfl) hp he
  obtain ⟨-, -, -, -, -, -, hlt⟩ := h.origin ha
  have hdecode : roundExpNeg (value (pairWeight (VectorFst.compose comp (mapToFeatureArcs x true)
      (mapToFeatureArcs F false)) (mapToFeatureArcs y true) a.weight).value2) =
      (owner comp F (x, y) e + 1 : ℕ) := eq_add_of_sub_eq (h.decode ha)
  exact ⟨hlt, fun hn => atoi_token ha hdecode hn⟩

end Names

/-! ### One symbol of right context over the alphabets `a` and `b` -/

section Unigram

/-- The arcs are INS, SUB, DEL, then FINAL, INS, then the two ABS arcs. -/
noncomputable def unigram : Machine LogWeight :=
  { fst := ⟨some 3, [⟨some 1, []⟩, ⟨none, [⟨0, 2, 1, 1⟩, ⟨0, 2, 1, 3⟩, ⟨0, 0, 1, 3⟩]⟩,
      ⟨none, [⟨0, 0, 1, 0⟩, ⟨0, 2, 1, 2⟩]⟩, ⟨none, [⟨2, 0, 1, 1⟩, ⟨1, 0, 1, 2⟩]⟩]⟩
    arcMap :=
      [((3, 2, 1, 0), .ABS), ((3, 1, 2, 0), .ABS), ((2, 2, 0, 2), .INS), ((1, 3, 0, 0), .DEL),
      ((1, 3, 0, 2), .SUB), ((1, 1, 0, 2), .INS), ((2, 0, 0, 0), .FINAL)]
    stateToContext := [⟨[], ["a"], []⟩, ⟨[], ["#"], []⟩, ⟨[], [], []⟩] }

theorem contextualEdit_unigram :
    contextualEdit LogWeight insertionOrder (smallArgs ⟨0, 1, 0⟩) = some unigram := rfl

/-- The acceptor of one symbol. -/
noncomputable def oneLetter (l : ℤ) : VectorFst LogWeight :=
  ⟨some 0, [⟨none, [⟨l, l, 1, 1⟩]⟩, ⟨some 1, []⟩]⟩

theorem isAcceptor_oneLetter {l : ℤ} (hl : l ≠ 0) : IsAcceptor (oneLetter l) := by
  have harc : ∀ e q a, (oneLetter l).arc? e = some (q, a) → a = ⟨l, l, 1, 1⟩ := by
    intro e q a h
    match e with
    | 0 =>
      cases h
      rfl
    | e + 1 => cases h
  have hfinal : RealFinals (oneLetter l) := by
    intro q w h
    match q with
    | 0 => cases h
    | 1 =>
      cases h
      exact ⟨one_ne_zero, ENNReal.one_ne_top⟩
    | q + 2 => cases h
  refine ⟨fun e q a h => ?_, fun e q a h => ?_, fun e q a h => ?_, hfinal⟩ <;> rw [harc e q a h]
  · exact hl
  · exact ENNReal.one_ne_top

theorem realFinals_unigram : RealFinals unigram.fst := by
  intro q w h
  match q with
  | 0 =>
    cases h
    exact ⟨one_ne_zero, ENNReal.one_ne_top⟩
  | 1 | 2 | 3 => cases h
  | q + 4 => cases h

/-- The boundary symbol is read, then symbols may be inserted, then the machine ends. -/
def medialUnigram : VectorFst Origin :=
  ⟨some 0, [⟨none, [⟨1, 0, (some 0, some 6), 1⟩]⟩,
    ⟨none, [⟨0, 0, (none, some 3), 2⟩, ⟨0, 2, (none, some 4), 1⟩]⟩, ⟨some (some 1, some 0), []⟩]⟩

/-- Exactly one symbol is inserted. -/
def latticeUnigram : VectorFst Origin :=
  ⟨some 0, [⟨none, [⟨1, 0, (some 0, none), 1⟩]⟩, ⟨none, [⟨0, 2, (some 2, some 0), 2⟩]⟩,
    ⟨none, [⟨0, 0, (some 1, none), 3⟩]⟩, ⟨some (some 2, some 1), []⟩]⟩

/-- The composition of these machines. -/
def composeUnigram : Composer :=
  fun F _ => if F.numStates = 2 then medialUnigram else latticeUnigram

theorem composes_medialUnigram : Composes (oneLetter 1).shape unigram.fst.shape medialUnigram := by
  constructor
  · exact fun _ => rfl
  · exact fun h => absurd h (by simp [medialUnigram])
  · intro e q a h
    match e with
    | 0 | 1 | 2 =>
      cases h
      decide
    | e + 3 => cases h
  · intro q hq
    match q, hq with
    | 0, _ => exact ⟨[], rfl⟩
    | 1, _ => exact ⟨[0], rfl⟩
    | 2, _ => exact ⟨[0, 1], rfl⟩
  · intro q hq
    match q, hq with
    | 0, _ => exact ⟨[0, 1], 2, rfl, rfl⟩
    | 1, _ => exact ⟨[1], 2, rfl, rfl⟩
    | 2, _ => exact ⟨[], 2, rfl, rfl⟩
  · intro e q a h
    match e with
    | 0 =>
      cases h
      exact ⟨rfl, rfl, rfl, by decide, fun _ => show some (1 : ℤ) ≠ some 0 by decide⟩
    | 1 | 2 =>
      cases h
      exact ⟨rfl, rfl, rfl, by decide, by simp⟩
    | e + 3 => cases h
  · intro q o h
    match q with
    | 0 | 1 => cases h
    | 2 =>
      cases h
      exact ⟨1, 0, rfl, rfl, rfl⟩
    | q + 3 => cases h

theorem composes_latticeUnigram : Composes medialUnigram.shape
    (oneLetter 2).shape latticeUnigram := by
  constructor
  · exact fun _ => rfl
  · exact fun h => absurd h (by simp [latticeUnigram])
  · intro e q a h
    match e with
    | 0 | 1 | 2 =>
      cases h
      decide
    | e + 3 => cases h
  · intro q hq
    match q, hq with
    | 0, _ => exact ⟨[], rfl⟩
    | 1, _ => exact ⟨[0], rfl⟩
    | 2, _ => exact ⟨[0, 1], rfl⟩
    | 3, _ => exact ⟨[0, 1, 2], rfl⟩
  · intro q hq
    match q, hq with
    | 0, _ => exact ⟨[0, 1, 2], 3, rfl, rfl⟩
    | 1, _ => exact ⟨[1, 2], 3, rfl, rfl⟩
    | 2, _ => exact ⟨[2], 3, rfl, rfl⟩
    | 3, _ => exact ⟨[], 3, rfl, rfl⟩
  · intro e q a h
    match e with
    | 0 | 2 =>
      cases h
      exact ⟨rfl, rfl, rfl, by decide, by simp⟩
    | 1 =>
      cases h
      exact ⟨rfl, rfl, rfl, by decide, fun _ => show some (2 : ℤ) ≠ some 0 by decide⟩
    | e + 3 => cases h
  · intro q o h
    match q with
    | 0 | 1 | 2 => cases h
    | 3 =>
      cases h
      exact ⟨2, 1, rfl, rfl, rfl⟩
    | q + 4 => cases h

theorem composable_unigram : Composable composeUnigram unigram.fst (oneLetter 1, oneLetter 2) where
  machine := realFinals_unigram
  input := isAcceptor_oneLetter one_ne_zero
  output := isAcceptor_oneLetter two_ne_zero
  medial := composes_medialUnigram
  lattice := composes_latticeUnigram

theorem accepts_unigram {f : Origin → FeatureWeight} {f' g' : Origin → StdWeight}
    {table : List (Sym × ℤ)} :
    (medialUnigram.mapArcs (relabelled table f f') g').Accepts [0, 1] ∧
      (latticeUnigram.mapArcs (relabelled table f f') g').Accepts [0, 1, 2] :=
  have hnext (a : Arc Origin) : (relabelled table f f' a).nextstate = a.nextstate := rfl
  ⟨⟨2, (medialUnigram.acceptsAt_mapArcs g' hnext).mpr ⟨0, rfl, rfl, rfl⟩⟩,
    ⟨3, (latticeUnigram.acceptsAt_mapArcs g' hnext).mpr ⟨0, rfl, rfl, rfl⟩⟩⟩

end Unigram

end StochasticEdit.Evaluation
