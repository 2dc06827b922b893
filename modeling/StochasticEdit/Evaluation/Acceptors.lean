import StochasticEdit.Evaluation.Strings
import StochasticEdit.Evaluation.TestData

/-! Strings as machines and back (`string_to_logfst`, `string_to_stdfst` and
`fst_to_string` of `wfst-train.cpp`). The first state is added with the first character, so
the empty string leaves a machine without the state that is to be final. The way back puts
every name in front of the output and reverses it: the result is the text of the states in
the order of their numbers, read backwards. -/

namespace StochasticEdit.Evaluation

open Wfst Trainer Generator

/-! ### The program -/

/-- The loop of `string_to_stdfst` over the characters. -/
noncomputable def stdLoop (syms : List (Sym × ℤ)) :
    ℕ → VectorFst StdWeight → List Char → VectorFst StdWeight
  | _, fst, [] => fst
  | stateId, fst, c :: str =>
    let s := String.singleton c
    let fst := if stateId = 0 then fst.addState.setStart 0 else fst
    let fst := fst.addState
    let fst := fst.addArc stateId ⟨findKey syms s, findKey syms s, 1, stateId + 1⟩
    stdLoop syms (stateId + 1) fst str

/-- `string_to_stdfst` into an empty machine. -/
noncomputable def stringToStdfst (str : List Char) (syms : List (Sym × ℤ)) :
    Option (VectorFst StdWeight) :=
  let fst := stdLoop syms 0 .empty str
  if str.length < fst.numStates then some (fst.setFinal str.length 1) else none

section Strings
variable {W : Type*} (osymbols : List (Sym × ℤ))

/-- The loop of `fst_to_string` of the trainer over the arcs of a state. -/
def WfstTrainer.outputPass : List Char → List (Arc W) → List Char
  | output, [] => output
  | output, curArc :: arcs =>
    let label := (name osymbols curArc.olabel).reverse
    outputPass (label ++ output) arcs

/-- The loop over the states. -/
def WfstTrainer.outputStates : List Char → List (State W) → List Char
  | output, [] => output
  | output, s :: states => outputStates (outputPass osymbols output s.arcs) states

/-- `fst_to_string` of the trainer, for a machine with the given output symbols. -/
def WfstTrainer.fstToString (fst : VectorFst W) : List Char := outputStates osymbols [] fst.states

end Strings

/-! ### From strings to machines -/

/-- The two loops build the same machine. -/
theorem stdLoop_eq (syms : List (Sym × ℤ)) (n : ℕ) (fst : VectorFst LogWeight) (str : List Char) :
    stdLoop syms n (toStd fst) str = toStd (stringLoop syms syms n fst str) := by
  induction str generalizing n fst with
  | nil => rfl
  | cons c str ih =>
    have hstart : (if n = 0 then (toStd fst).addState.setStart 0 else toStd fst) =
        toStd (if n = 0 then fst.addState.setStart 0 else fst) := by
      split_ifs
      · rw [toStd, toStd, VectorFst.map_setStart, VectorFst.map_addState]
      · rfl
    have harc (fst : VectorFst LogWeight) (i o : ℤ) :
        (toStd fst).addState.addArc n ⟨i, o, 1, n + 1⟩ =
          toStd (fst.addState.addArc n ⟨i, o, 1, n + 1⟩) := by
      rw [toStd, toStd, VectorFst.map_addArc, VectorFst.map_addState, Arc.map, convertWeight_one]
    rw [stdLoop, stringLoop]
    simp only [hstart, harc]
    exact ih (n + 1) _

theorem stringToStdfst_eq (str : List Char) (syms : List (Sym × ℤ)) :
    stringToStdfst str syms = (stringToLogfst str syms syms).map toStd := by
  have hloop : stdLoop syms 0 .empty str = toStd (stringLoop syms syms 0 .empty str) :=
    stdLoop_eq syms 0 .empty str
  have hnum : (toStd (stringLoop syms syms 0 .empty str)).numStates =
      (stringLoop syms syms 0 .empty str).numStates :=
    VectorFst.numStates_map _ _ _
  rw [stringToStdfst, stringToLogfst]
  simp only [hloop, hnum]
  split_ifs
  · rw [Option.map_some, toStd, toStd, VectorFst.map_setFinal, convertWeight_one]
  · rfl

/-- The machine accepts the ids of the characters, and nothing else. -/
def Encodes {W : Type*} [CommMonoid W] (isyms osyms : List (Sym × ℤ)) (str : List Char)
    (fst : VectorFst W) : Prop :=
  ∃ l, (l.map fun p => (some p.1, some p.2)) =
      (str.map fun c =>
        (symbolId isyms (String.singleton c), symbolId osyms (String.singleton c))) ∧
    AcceptsOnly fst l

section Encode
variable {isyms osyms : List (Sym × ℤ)} {str : List Char}

theorem findKey_of_isSome {table : List (Sym × ℤ)} {s : Sym} (h : (symbolId table s).isSome) :
    some (findKey table s) = symbolId table s := by
  obtain ⟨i, hi⟩ := Option.isSome_iff_exists.mp h
  rw [findKey, hi, Option.getD_some]

theorem encodes_linear {W : Type*} [CommMonoid W]
    (hi : ∀ c ∈ str, (symbolId isyms (String.singleton c)).isSome)
    (ho : ∀ c ∈ str, (symbolId osyms (String.singleton c)).isSome) :
    Encodes isyms osyms str (linear W (labelPairs isyms osyms str)) := by
  refine ⟨_, ?_, acceptsOnly_linear _⟩
  rw [labelPairs, List.map_map]
  refine List.map_congr_left fun c hc => ?_
  rw [Function.comp_apply, findKey_of_isSome (hi c hc), findKey_of_isSome (ho c hc)]

/-- `string_to_logfst` encodes every string but the empty one, -/
theorem stringToLogfst_encodes_iff (hi : ∀ c ∈ str, (symbolId isyms (String.singleton c)).isSome)
    (ho : ∀ c ∈ str, (symbolId osyms (String.singleton c)).isSome) :
    (∃ fst, stringToLogfst str isyms osyms = some fst ∧ Encodes isyms osyms str fst) ↔
      str ≠ [] := by
  rw [stringToLogfst_eq]
  split_ifs with h
  · refine iff_of_false ?_ (not_not.mpr h)
    rintro ⟨fst, hfst, -⟩
    cases hfst
  · exact iff_of_true ⟨_, rfl, encodes_linear hi ho⟩ h

/-- and so does `string_to_stdfst`. -/
theorem stringToStdfst_encodes_iff (hi : ∀ c ∈ str, (symbolId isyms (String.singleton c)).isSome) :
    (∃ fst, stringToStdfst str isyms = some fst ∧ Encodes isyms isyms str fst) ↔ str ≠ [] := by
  rw [stringToStdfst_eq, stringToLogfst_eq]
  split_ifs with h
  · refine iff_of_false ?_ (not_not.mpr h)
    rintro ⟨fst, hfst, -⟩
    cases hfst
  · refine iff_of_true ⟨_, rfl, ?_⟩ h
    rw [toStd, map_linear convertWeight_one]
    exact encodes_linear hi hi

end Encode

/-- A string of symbols becomes an acceptor of its ids exactly if it is not empty. -/
theorem encodes_iff (isyms osyms syms : List (Sym × ℤ)) (str : List Char)
    (hi : ∀ c ∈ str, (symbolId isyms (String.singleton c)).isSome)
    (ho : ∀ c ∈ str, (symbolId osyms (String.singleton c)).isSome)
    (hs : ∀ c ∈ str, (symbolId syms (String.singleton c)).isSome) :
    ((∃ fst, stringToLogfst str isyms osyms = some fst ∧ Encodes isyms osyms str fst) ↔ str ≠ []) ∧
      ((∃ fst, stringToStdfst str syms = some fst ∧ Encodes syms syms str fst) ↔ str ≠ []) :=
  ⟨stringToLogfst_encodes_iff hi ho, stringToStdfst_encodes_iff hs⟩

theorem encodes_letter :
    ((∃ fst, stringToLogfst ['a'] [("a", 2)] [("a", 3)] = some fst ∧
      Encodes [("a", 2)] [("a", 3)] ['a'] fst) ↔
        (['a'] : List Char) ≠ []) ∧
      ((∃ fst, stringToStdfst ['a'] [("a", 2)] = some fst ∧
        Encodes [("a", 2)] [("a", 2)] ['a'] fst) ↔
        (['a'] : List Char) ≠ []) := by
  refine encodes_iff [("a", 2)] [("a", 3)] [("a", 2)] ['a'] ?_ ?_ ?_ <;>
  · intro c hc
    obtain rfl := List.mem_singleton.mp hc
    decide

/-- The empty string is not encoded. -/
theorem not_encodes : ¬ ∀ (syms : List (Sym × ℤ)) (str : List Char),
    (∀ c ∈ str, (symbolId syms (String.singleton c)).isSome) →
    (∃ fst, stringToLogfst str syms syms = some fst ∧ Encodes syms syms str fst) ∧
      ∃ fst, stringToStdfst str syms = some fst ∧ Encodes syms syms str fst := by
  intro h
  obtain ⟨⟨fst, hfst, -⟩, -⟩ := h [] [] fun c hc => absurd hc List.not_mem_nil
  cases hfst

/-! ### From machines to strings -/

section Lower
variable {W : Type*} {osymbols : List (Sym × ℤ)}

theorem WfstTrainer.outputPass_eq (output : List Char) (arcs : List (Arc W)) :
    outputPass osymbols output arcs =
    ((arcs.map Arc.olabel).flatMap (name osymbols)).reverse ++ output := by
  induction arcs generalizing output with
  | nil => rfl
  | cons curArc arcs ih =>
    rw [outputPass, ih, List.map_cons, List.flatMap_cons, List.reverse_append, List.append_assoc]

theorem WfstTrainer.outputStates_eq (output : List Char) (states : List (State W)) :
    outputStates osymbols output states =
      ((states.flatMap fun s => s.arcs.map Arc.olabel).flatMap (name osymbols)).reverse ++
        output := by
  induction states generalizing output with
  | nil => rfl
  | cons s states ih =>
    rw [outputStates, ih, outputPass_eq, List.flatMap_cons, List.flatMap_append,
      List.reverse_append, List.append_assoc]

/-- The names in the order of the states, read backwards. -/
theorem WfstTrainer.fstToString_eq (fst : VectorFst W) :
    fstToString osymbols fst = (fst.olabels.flatMap (name osymbols)).reverse := by
  rw [fstToString, outputStates_eq, List.append_nil]
  rfl

/-- The names along a chain, without empty words. -/
def chainText (osymbols : List (Sym × ℤ)) (l : List (ℤ × ℤ)) : List Char :=
  ((l.map Prod.snd).filter (· ≠ 0)).flatMap (name osymbols)

variable {fst : VectorFst W} {l : List (ℤ × ℤ)} {σ : Equiv.Perm (Fin (l.length + 1))}

/-- On a chain the names come out backwards, those of higher states first. -/
theorem WfstTrainer.fstToString_chain (h : Chain fst l σ) :
    fstToString osymbols fst = (positions σ).reverse.flatMap fun k =>
      (name osymbols (l.get k).2).reverse := by
  rw [fstToString_eq, h.olabels, List.flatMap_map, List.reverse_flatMap]
  rfl

/-- All names together are longer than the text along the chain if an empty word has one. -/
theorem length_chainText_iff (l : List (ℤ × ℤ)) :
    (chainText osymbols l).length ≤ (l.map fun x => (name osymbols x.2).length).sum ∧
      ((chainText osymbols l).length = (l.map fun x => (name osymbols x.2).length).sum ↔
        ∀ x ∈ l, x.2 = 0 → name osymbols 0 = []) := by
  induction l with
  | nil => exact ⟨le_rfl, iff_of_true rfl fun x hx => absurd hx List.not_mem_nil⟩
  | cons x l ih =>
    obtain ⟨hle, ih⟩ := ih
    rw [List.forall_mem_cons, ← ih, List.map_cons, List.sum_cons]
    by_cases h : x.2 = 0
    · have htext : chainText osymbols (x :: l) = chainText osymbols l := by
        rw [chainText, List.map_cons, List.filter_cons_of_neg (by simpa using h)]
        rfl
      rw [htext, h, forall_prop_of_true rfl, ← List.length_eq_zero_iff]
      omega
    · have htext : chainText osymbols (x :: l) = name osymbols x.2 ++ chainText osymbols l := by
        rw [chainText, List.map_cons, List.filter_cons_of_pos (by simpa using h), List.flatMap_cons]
        rfl
      rw [htext, List.length_append]
      exact ⟨Nat.add_le_add_left hle
        _, by rw [Nat.add_left_cancel_iff, and_iff_right fun h' => absurd h' h]⟩

/-- A chain that the way back can follow: its empty words have no name, and after as many
characters as the names on the states with higher numbers have, the text along the chain
goes on with the name of the state backwards. -/
structure ReadsBack (osymbols : List (Sym × ℤ)) (l : List (ℤ × ℤ))
    (σ : Equiv.Perm (Fin (l.length + 1))) : Prop where
  empty : ∀ x ∈ l, x.2 = 0 → name osymbols 0 = []
  name : ∀ k : Fin l.length, (name osymbols (l.get k).2).reverse <+:
    (chainText osymbols l).drop
      (∑ j : Fin l.length with σ k.castSucc < σ j.castSucc, (name osymbols (l.get j).2).length)

theorem WfstTrainer.fstToString_eq_chainText_iff (h : Chain fst l σ) :
    fstToString osymbols fst = chainText osymbols l ↔ ReadsBack osymbols l σ := by
  have hlen : ∑ k : Fin l.length, (name osymbols (l.get k).2).reverse.length =
      (l.map fun x => (name osymbols x.2).length).sum := by
    simp only [List.length_reverse]
    exact Fin.sum_univ_fun_getElem l fun x => (name osymbols x.2).length
  rw [fstToString_chain h, flatMap_positions_eq_iff, hlen, (length_chainText_iff l).2]
  simp only [List.length_reverse]
  exact ⟨fun ⟨hempty, hname⟩ => ⟨hempty, hname⟩, fun ⟨hempty, hname⟩ => ⟨hempty, hname⟩⟩

/-- With different single characters for names the numbers have to fall along the chain. -/
theorem WfstTrainer.fstToString_eq_chainText_iff_fall (h : Chain fst l σ) {c : Fin l.length → Char}
    (hne : ∀ x ∈ l, x.2 ≠ 0) (hc : ∀ k, name osymbols (l.get k).2 = [c k])
    (hinj : Function.Injective c) :
    fstToString osymbols fst = chainText osymbols l ↔
      ∀ j k : Fin l.length, j < k → σ k.castSucc < σ j.castSucc := by
  have hfilter : (l.map Prod.snd).filter (· ≠ 0) = l.map Prod.snd := by
    refine List.filter_eq_self.mpr fun o ho => ?_
    obtain ⟨x, hx, rfl⟩ := List.mem_map.mp ho
    exact decide_eq_true (hne x hx)
  have htext : chainText osymbols l = (List.finRange l.length).map c := by
    rw [chainText, hfilter, ← map_finRange_snd, List.flatMap_map, List.map_eq_flatMap]
    exact List.flatMap_congr fun k _ => hc k
  have hback : fstToString osymbols fst = (positions σ).reverse.map c := by
    rw [fstToString_chain h, List.map_eq_flatMap]
    exact List.flatMap_congr fun k _ => by rw [hc k, List.reverse_singleton]
  rw [htext, hback, hinj.list_map.eq_iff, positions_reverse_iff]

end Lower

/-! ### There and back -/

section RoundTrip
variable {table : List (Sym × ℤ)} {str : List Char}

/-- The symbols of a text have ids in the table, and the ids have single characters for
names. -/
structure OverTable (table : List (Sym × ℤ)) (str : List Char) : Prop where
  known : ∀ c ∈ str, (symbolId table (String.singleton c)).isSome
  single : ∀ c ∈ str, ∀ p ∈ table, p.2 = findKey table (String.singleton c) → p.1.toList.length = 1

/-- The id of each symbol has the symbol at the mirrored place for its name. -/
def Mirrored (table : List (Sym × ℤ)) (str : List Char) : Prop :=
  ∀ i : Fin str.length, name table (findKey table (String.singleton str[i])) = [str[i.rev]]

/-- A string comes back as the names of its ids, reversed. -/
theorem WfstTrainer.fstToString_stringToStdfst (table : List (Sym × ℤ)) (hne : str ≠ []) :
    ∃ fst, stringToStdfst str table = some fst ∧ fstToString table fst =
      (str.flatMap fun c => name table (findKey table (String.singleton c))).reverse := by
  rw [stringToStdfst_eq, stringToLogfst_eq, if_neg hne]
  refine ⟨_, rfl, ?_⟩
  rw [toStd, map_linear convertWeight_one, fstToString_eq, (chain_linear _).olabels, positions_refl,
    map_finRange_snd, labelPairs, List.map_map, List.flatMap_map]
  rfl

/-- The id of a symbol is that of an entry, which names it. -/
theorem exists_mem_name {s : Sym} (h : (symbolId table s).isSome) :
    ∃ p ∈ table, p.2 = findKey table s ∧ name table (findKey table s) = p.1.toList := by
  obtain ⟨v, hv⟩ := Option.isSome_iff_exists.mp (findSymbol_isSome (findKey_of_isSome h).symm)
  exact ⟨(v, findKey table s), mem_of_findSymbol hv, rfl, by rw [name, findText, hv]; rfl⟩

theorem OverTable.exists_name (h : OverTable table str) {c : Char} (hc : c ∈ str) :
    ∃ d, name table (findKey table (String.singleton c)) = [d] := by
  obtain ⟨p, hp, hid, hname⟩ := exists_mem_name (h.known c hc)
  obtain ⟨d, hd⟩ := List.length_eq_one_iff.mp (h.single c hc p hp hid)
  exact ⟨d, hname.trans hd⟩

theorem reverse_map_eq_iff {α : Type*} {l : List α} {f : α → α} :
    (l.map f).reverse = l ↔ ∀ i : Fin l.length, f l[i] = l[i.rev] := by
  rw [List.reverse_eq_iff]
  constructor
  · intro heq i
    have hi := List.getElem_of_eq heq (i := i) (by simp)
    rw [List.getElem_map, List.getElem_reverse] at hi
    simpa [Nat.sub_sub, Nat.add_comm] using hi
  · intro h
    refine List.ext_getElem (by simp) fun i hi _ => ?_
    rw [List.length_map] at hi
    rw [List.getElem_map, List.getElem_reverse]
    simpa [Nat.sub_sub, Nat.add_comm] using h ⟨i, hi⟩

theorem OverTable.reverse_names_iff (h : OverTable table str) :
    (str.flatMap fun c => name table (findKey table (String.singleton c))).reverse = str ↔
      Mirrored table str := by
  choose! d hd using fun c hc => h.exists_name (c := c) hc
  have hmap : (str.flatMap fun c => name table (findKey table (String.singleton c))) =
      str.map d := by
    rw [List.map_eq_flatMap]
    exact List.flatMap_congr hd
  rw [hmap, reverse_map_eq_iff]
  refine forall_congr' fun i => ?_
  rw [hd str[i] (List.getElem_mem i.isLt), List.cons.injEq, and_iff_left rfl]

/-- With one name for each id the mirrored texts are the palindromes. -/
theorem mirrored_iff_palindrome
    (hname : ∀ c ∈ str, name table (findKey table (String.singleton c)) = [c]) :
    Mirrored table str ↔ str.reverse = str := by
  have hself : str.reverse = str ↔ ∀ i : Fin str.length, id str[i] = str[i.rev] := by
    rw [← reverse_map_eq_iff, List.map_id]
  rw [hself]
  refine forall_congr' fun i => ?_
  rw [hname str[i] (List.getElem_mem i.isLt), List.cons.injEq, and_iff_left rfl]
  rfl

end RoundTrip

/-- Over single characters a non-empty string comes back as it was exactly if the id of
each symbol names the symbol at the mirrored place, with one name for each id exactly if
the string is a palindrome. The text along a chain comes out exactly if the numbers of the
states and the names fit, for different single characters exactly if the numbers fall. -/
theorem fstToString_iff (table : List (Sym × ℤ)) :
    (∀ str : List Char, str ≠ [] → OverTable table str →
      ∃ fst, stringToStdfst str table = some fst ∧
        (WfstTrainer.fstToString table fst = str ↔ Mirrored table str) ∧
        ((∀ c ∈ str, ∀ p ∈ table, p.2 = findKey table (String.singleton c) →
          p.1 = String.singleton c) →
          (WfstTrainer.fstToString table fst = str ↔ str.reverse = str))) ∧
    ∀ (fst : VectorFst StdWeight) (l : List (ℤ × ℤ)) (σ : Equiv.Perm (Fin (l.length + 1))),
      Chain fst l σ →
      (WfstTrainer.fstToString table fst = chainText table l ↔ ReadsBack table l σ) ∧
      ∀ c : Fin l.length → Char, (∀ x ∈ l, x.2 ≠ 0) → (∀ k, name table (l.get k).2 = [c k]) →
        Function.Injective c →
        (WfstTrainer.fstToString table fst = chainText table l ↔
          ∀ j k : Fin l.length, j < k → σ k.castSucc < σ j.castSucc) := by
  refine ⟨fun str hne h => ?_, fun fst l σ h => ⟨WfstTrainer.fstToString_eq_chainText_iff h,
    fun c hl hc hinj => WfstTrainer.fstToString_eq_chainText_iff_fall h hl hc hinj⟩⟩
  obtain ⟨fst, hfst, hback⟩ := WfstTrainer.fstToString_stringToStdfst table hne
  refine ⟨fst, hfst, by rw [hback, h.reverse_names_iff], fun hone => ?_⟩
  have hname (c : Char) (hc : c ∈ str) : name table (findKey table (String.singleton c)) = [c] := by
    obtain ⟨p, hp, hid, hname⟩ := exists_mem_name (h.known c hc)
    rw [hname, hone c hc p hp hid, String.toList_singleton]
  rw [hback, h.reverse_names_iff, mirrored_iff_palindrome hname]

/-! ### Two letters -/

section Letters

def letters : List (Sym × ℤ) := [("a", 1), ("b", 2)]

theorem overTable_letters {str : List Char} (h : ∀ c ∈ str, c = 'a' ∨ c = 'b') :
    OverTable letters str where
  known c hc := by rcases h c hc with rfl | rfl <;> decide
  single _ _ p hp _ := (by decide : ∀ p ∈ letters, p.1.toList.length = 1) p hp

/-- `aba` comes back, and so does `ab` along a chain that is numbered from its end. -/
theorem fstToString_palindrome :
    (∃ fst, stringToStdfst ['a', 'b', 'a'] letters = some fst ∧
      WfstTrainer.fstToString letters fst = ['a', 'b', 'a']) ∧
    WfstTrainer.fstToString letters (backChain StdWeight [(1, 1), (2, 2)]) = ['a', 'b'] := by
  obtain ⟨hround, hchain⟩ := fstToString_iff letters
  have hover : OverTable letters ['a', 'b', 'a'] := overTable_letters (by simp)
  obtain ⟨fst, hfst, hback, -⟩ := hround ['a', 'b', 'a'] (by decide) hover
  refine ⟨⟨fst, hfst, hback.mpr ?_⟩, (hchain _ _ _ (chain_backChain _)).1.mpr ⟨?_, ?_⟩⟩
  · intro i
    fin_cases i <;> rfl
  · decide
  · intro k
    fin_cases k <;> decide

/-- `ab` comes back as `ba`. -/
theorem not_fstToString : ¬ ∀ (table : List (Sym × ℤ)) (str : List Char),
    str ≠ [] → OverTable table str →
    ∃ fst, stringToStdfst str table = some fst ∧ WfstTrainer.fstToString table fst = str := by
  intro h
  have hne : ['a', 'b'] ≠ [] := by decide
  obtain ⟨fst, hfst, heq⟩ := h letters ['a', 'b'] hne (overTable_letters (by simp))
  obtain ⟨fst', hfst', hback⟩ := WfstTrainer.fstToString_stringToStdfst letters hne
  obtain rfl := Option.some.inj (hfst.symm.trans hfst')
  exact absurd (heq.symm.trans hback) (by decide)

end Letters

end StochasticEdit.Evaluation
