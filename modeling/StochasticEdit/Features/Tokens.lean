import StochasticEdit.Features.RoundTrip

/-! What `main` looks up for the tokens of an alignment. The token of an arc is its number
plus one, and the entry of `arc_mapper` under it is the record of the next arc of the
machine, up to its first comma. -/

namespace StochasticEdit.Features

open Wfst Trainer Generator Text Evaluation

/-- The record of the next arc, cut at its first comma, is the record of arc `k`. -/
def NextReadsAs {W : Type*} (args : Args) (M : Machine W) (k : ℕ) : Prop :=
  ∃ r r', M.record? args k = some r ∧ M.record? args (k + 1) = some r' ∧
    ((recordText r').splitOn ',').head? = some (recordText r)

/-- `arc_mapper[atoi(token)]` for an arc of a decoded path. -/
noncomputable def lookup (ev : Evaluator) (arcMapper : ℤ → Option Str)
    (final : VectorFst StdWeight) (e : ℕ) :
    Option Str := arcMapper (Evaluation.atoi (ev.token final e))

/-! ### The entries -/

section Entries
variable {W : Type*} [One W] {ord : HashOrder} {args : Args} {M : Machine W}
  (h : contextualEdit W ord args = some M)

include h

/-- The map that is read from the file that was written. -/
theorem exists_readArcMapper (h1 : ∀ v ∈ args.V1, '\n' ∉ v.toList)
    (h2 : ∀ v ∈ args.V2, '\n' ∉ v.toList) :
    ∃ text arcMapper, arcToActionText args M = some text ∧ readArcMapper text = some arcMapper ∧
      ∀ k : ℕ, arcMapper k = (M.record? args k).bind fun r =>
        ((recordText r).splitOn ',').head? := by
  obtain ⟨r, hr, htext, hfile⟩ := exists_arcLines h h1 h2
  obtain ⟨arcMapper, hloop, hentry⟩ := arcMapperLoop_range r M.fst.numArcs
  refine ⟨_, arcMapper, htext, by rw [readArcMapper, hfile, hloop], fun k => ?_⟩
  rw [hentry k]
  split_ifs with hk
  · rw [hr k hk, Option.bind_some]
  · have hnone : M.fst.arc? k = none := by
      rw [← Option.not_isSome_iff_eq_none, VectorFst.arc?_isSome_iff]
      exact hk
    rw [Machine.record?, hnone]
    rfl

/-- The entry under the number of the next arc is the record of an arc exactly if the next
arc reads as this one. -/
theorem entry_eq_iff {arcMapper : ℤ → Option Str}
    (hmap : ∀ k : ℕ, arcMapper k = (M.record? args k).bind fun r =>
      ((recordText r).splitOn ',').head?)
    {k : ℕ} (hk : k < M.fst.numArcs) :
    arcMapper (k + 1 : ℕ) = (M.record? args k).map recordText ↔ NextReadsAs args M k := by
  obtain ⟨r, hr⟩ := Option.isSome_iff_exists.mp (record?_isSome h hk)
  rw [hmap, hr, Option.map_some, Option.bind_eq_some_iff]
  constructor
  · rintro ⟨r', hr', hhead⟩
    exact ⟨r, r', hr, hr', hhead⟩
  · rintro ⟨r₁, r', hr₁, hr', hhead⟩
    obtain rfl := Option.some.inj (hr.symm.trans hr₁)
    exact ⟨r', hr', hhead⟩

/-- Over characters other than tabs and hyphens no two arcs have the same text, -/
theorem recordText_inj (hV1 : CharAlphabet (· ∉ ['\t', '-']) args.V1)
    (hV2 : CharAlphabet (· ∉ ['\t', '-']) args.V2) {e e' : ℕ} {r r' : Record}
    (hr : M.record? args e = some r) (hr' : M.record? args e' = some r')
    (htext : recordText r = recordText r') : e = e' := by
  have hV := valid_of_charAlphabet hV1 hV2
  have htab {e : ℕ} {r : Record} (hr : M.record? args e = some r) :
      ∀ f ∈ recordFields r, '\t' ∉ f :=
    notMem_recordFields (hV1.notMem (by simp)) h (hV2.notMem (by simp)) (by decide) hr
  have hfields : recordFields r = recordFields r' :=
    (intercalate_inj (List.cons_ne_nil _ _) (List.cons_ne_nil _ _) (htab hr) (htab hr')).mp htext
  obtain ⟨c, m, t, hc, hm, ha, rfl⟩ := exists_move_of_record? h hV.unreserved hr
  obtain ⟨c', m', t', hc', hm', ha', rfl⟩ := exists_move_of_record? h hV.unreserved hr'
  simp only [recordFields, List.cons.injEq, and_true] at hfields
  obtain ⟨hsource, -, hi, ho, hact⟩ := hfields
  have hhyphen {c : Context} (hc : IsKey args c) : ∀ w ∈ contextParts (some c), '-' ∉ w :=
    notMem_contextParts (hV1.notMem (by simp)) hc (by decide) (.inr (hV2.notMem (by simp)))
  have hparts : contextParts (some c) = contextParts (some c') :=
    (intercalate_inj (List.cons_ne_nil _ _) (List.cons_ne_nil _ _) (hhyphen hc) (hhyphen hc')).mp
      hsource
  simp only [contextParts, List.cons.injEq, and_true] at hparts
  obtain ⟨hulc, hurc, hllc⟩ := hparts
  have hcc : c = c' := by
    obtain ⟨ulc, urc, llc⟩ := c
    obtain ⟨ulc', urc', llc'⟩ := c'
    rw [Context.mk.injEq]
    exact ⟨chars_inj (fun s hs => hV1.exists_char (hc.ulc_mem s hs))
      (fun s hs => hV1.exists_char (hc'.ulc_mem s hs)) hulc,
      chars_inj (fun s hs => hV1.exists_char (hc.urc_mem s hs))
        (fun s hs => hV1.exists_char (hc'.urc_mem s hs)) hurc,
      chars_inj (fun s hs => hV2.exists_char (hc.llc_mem s hs))
        (fun s hs => hV2.exists_char (hc'.llc_mem s hs)) hllc⟩
  obtain rfl := hcc
  obtain rfl := move_eq_of_names (actionText_inj hact) (String.toList_injective hi)
    (String.toList_injective ho)
  obtain rfl := target_unique hm hm'
  exact arc_unique h hV (completes_of_contextualEdit h hV.unreserved) hc hm ha ha'

omit [One W] h in
/-- and a record that is cut at a comma is not a record. -/
theorem head_splitOn_ne {r r' : Record} (htab : ∀ f ∈ recordFields r, '\t' ∉ f)
    (htab' : ∀ f ∈ recordFields r', '\t' ∉ f) (hcomma : ',' ∈ recordText r') :
    ((recordText r').splitOn ',').head? ≠ some (recordText r) := by
  intro hhead
  have hcount {q : List Str} (hq : q ≠ []) (hno : ∀ f ∈ q, '\t' ∉ f) :
      (['\t'].intercalate q).count '\t' + 1 = q.length := by
    rw [← length_splitOn, (splitOn_intercalate_iff hq).mpr hno]
  -- the text in front of the last tab, which is followed by the action
  have hlast : recordText r' = ['\t'].intercalate (recordFields r').dropLast ++ '\t' ::
      actionText r'.action := by
    simp [recordText, recordFields, List.intercalate_cons_cons]
  have hfour := hcount (q := (recordFields r').dropLast) (List.cons_ne_nil _ _) fun f hf =>
    htab' f (List.mem_of_mem_dropLast hf)
  have hfive := hcount (List.cons_ne_nil _ _) htab
  cases hsplit : (recordText r').splitOn ',' with
  | nil => exact List.splitOn_ne_nil _ _ hsplit
  | cons p ps =>
    rw [hsplit, List.head?_cons, Option.some.injEq] at hhead
    subst hhead
    cases ps with
    | nil => exact (eq_of_splitOn_singleton hsplit).2 ((eq_of_splitOn_singleton hsplit).1 ▸ hcomma)
    | cons q ps =>
      obtain ⟨y, hy, -, -⟩ := eq_append_of_splitOn hsplit
      rw [hlast] at hy
      rcases List.append_eq_append_iff.mp hy with ⟨t, hp, ht⟩ | ⟨t, hq, -⟩
      · -- the comma would stand in the action
        have hmem : ',' ∈ '\t' :: actionText r'.action := by
          rw [ht]
          simp
        rcases List.mem_cons.mp hmem with hmem | hmem
        · exact absurd hmem (by decide)
        · exact absurd (actionText_subset _ hmem) (by decide)
      · -- four tabs do not fit in front of the last one
        have hle := congrArg (List.count '\t') hq
        rw [List.count_append] at hle
        simp only [recordText, recordFields, List.dropLast, List.length_cons,
          List.length_nil] at hfour hfive hle
        omega

/-- So there the next arc never reads as this one. -/
theorem not_nextReadsAs (hV1 : CharAlphabet (· ∉ ['\t', '-']) args.V1)
    (hV2 : CharAlphabet (· ∉ ['\t', '-']) args.V2) (k : ℕ) : ¬ NextReadsAs args M k := by
  rintro ⟨r, r', hr, hr', hhead⟩
  have htab {e : ℕ} {r : Record} (hr : M.record? args e = some r) :
      ∀ f ∈ recordFields r, '\t' ∉ f :=
    notMem_recordFields (hV1.notMem (by simp)) h (hV2.notMem (by simp)) (by decide) hr
  by_cases hcomma : ',' ∈ recordText r'
  · exact head_splitOn_ne (htab hr) (htab hr') hcomma hhead
  · rw [List.splitOn_eq_singleton hcomma, List.head?_singleton, Option.some.injEq] at hhead
    have := recordText_inj h hV1 hV2 hr' hr hhead
    omega

end Entries

/-! ### What the tokens name -/

section Names
variable {comp : Composer} {F x y : VectorFst LogWeight} {ord : HashOrder} {args : Args}
  {M : Machine LogWeight} (isymbols osymbols : List (Sym × ℤ)) (n : ℕ)
  (testData : List (VectorFst LogWeight × VectorFst LogWeight))

end Names

end StochasticEdit.Features
