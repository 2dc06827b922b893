import StochasticEdit.Features.Rows

/-! Which features two arcs share. A feature is a text with five slots, some of which are
masked, and its number belongs to the text. Neither the separator `0` nor the mask `9` is
part of a symbol, so the text tells which slots are masked and what the others hold. -/

namespace StochasticEdit.Features

open Wfst Generator Text

/-! ### Slots and masks -/

/-- The parts of a feature. -/
inductive Slot
  | s
  | t
  | upperLeft
  | upperRight
  | lowerLeft
  deriving DecidableEq

def slots : List Slot := [.s, .t, .upperLeft, .upperRight, .lowerLeft]

theorem mem_slots (k : Slot) : k ∈ slots := by
  cases k <;> decide

/-- What a record with source `c` has in a slot. Without INS the first symbol of the right
window is consumed. -/
def slot (r : Record) (c : Context) : Slot → List Sym
  | .s => if r.action = .INS then [epsilon] else c.urc.take 1
  | .t => [r.olabel]
  | .upperLeft => c.ulc
  | .upperRight => if r.action = .INS then c.urc else c.urc.drop 1
  | .lowerLeft => c.llc

/-- The slots that the templates mask. -/
def masks : List (List Slot) :=
  [[],
    [.upperLeft],
    [.upperRight],
    [.lowerLeft],
    [.upperLeft, .upperRight],
    [.upperRight, .lowerLeft],
    [.upperLeft, .lowerLeft],
    [.upperLeft, .upperRight, .lowerLeft],
    [.s, .lowerLeft],
    [.s],
    [.t],
    [.t, .upperLeft],
    [.t, .upperRight],
    [.t, .upperLeft, .upperRight]]

def maskedParts (mask : List Slot) (text : Slot → Str) : List Str :=
  slots.map fun k => if k ∈ mask then ['9'] else text k

def maskedText (mask : List Slot) (text : Slot → Str) : Str :=
  ['0'].intercalate (maskedParts mask text)

theorem templates_eq (text : Slot → Str) :
    templates (text .s) (text .t) (text .upperLeft) (text .upperRight) (text .lowerLeft) =
      masks.map fun mask => maskedText mask text := rfl

theorem nodup_masks : masks.Nodup := by decide

/-- No two templates mask the same slots. -/
theorem masks_ext {m m' : List Slot} (hm : m ∈ masks) (hm' : m' ∈ masks) (h : ∀ k, k ∈ m ↔ k ∈ m') :
    m = m' := by
  have hall : (masks.all fun m => masks.all fun m' =>
      !(slots.all fun k => decide (k ∈ m ↔ k ∈ m')) || decide (m = m')) = true := by decide
  have hpair := List.all_eq_true.mp (List.all_eq_true.mp hall m hm) m' hm'
  have hslots : (slots.all fun k => decide (k ∈ m ↔ k ∈ m')) = true :=
    List.all_eq_true.mpr fun k _ => decide_eq_true (h k)
  rw [hslots, Bool.not_true, Bool.false_or] at hpair
  exact of_decide_eq_true hpair

/-- A text of a feature has neither the separator nor the mask in its slots. -/
def Unmarked (text : Slot → Str) : Prop := ∀ k, '0' ∉ text k ∧ '9' ∉ text k

theorem maskedParts_ne_nil (mask : List Slot) (text : Slot → Str) : maskedParts mask text ≠ [] :=
  List.cons_ne_nil _ _

theorem notMem_maskedParts {text : Slot → Str} (h : Unmarked text) (mask : List Slot) :
    ∀ p ∈ maskedParts mask text, '0' ∉ p := by
  intro p hp
  obtain ⟨k, -, rfl⟩ := List.mem_map.mp hp
  split_ifs
  · decide
  · exact (h k).1

/-- Two features have the same text if they mask the same slots and agree on the others. -/
theorem maskedText_inj {m m' : List Slot} {x y : Slot → Str} (hx : Unmarked x) (hy : Unmarked y) :
    maskedText m x = maskedText m' y ↔ (∀ k, k ∈ m ↔ k ∈ m') ∧ ∀ k, k ∉ m → x k = y k := by
  have hmark {z : Slot → Str} (hz : Unmarked z) (k : Slot) : z k ≠ ['9'] := fun h =>
    (hz k).2 (h ▸ List.mem_singleton.mpr rfl)
  rw [maskedText, maskedText, intercalate_inj (maskedParts_ne_nil m x) (maskedParts_ne_nil m' y)
    (notMem_maskedParts hx m) (notMem_maskedParts hy m'), maskedParts, maskedParts,
      List.map_inj_left]
  constructor
  · intro h
    refine ⟨fun k => ?_, fun k hk => ?_⟩
    · have hpart := h k (mem_slots k)
      by_cases hm : k ∈ m <;> by_cases hm' : k ∈ m'
      · exact iff_of_true hm hm'
      · rw [if_pos hm, if_neg hm'] at hpart
        exact absurd hpart.symm (hmark hy k)
      · rw [if_neg hm, if_pos hm'] at hpart
        exact absurd hpart (hmark hx k)
      · exact iff_of_false hm hm'
    · have hpart := h k (mem_slots k)
      rw [if_neg hk] at hpart
      split_ifs at hpart with hm'
      · exact absurd hpart (hmark hx k)
      · exact hpart
  · rintro ⟨hmask, hslot⟩ k -
    by_cases hm : k ∈ m
    · rw [if_pos hm, if_pos ((hmask k).mp hm)]
    · rw [if_neg hm, if_neg ((hmask k).not.mp hm), hslot k hm]

/-! ### The features of an arc -/

/-- What a symbol must not be, besides the boundary symbol. -/
def reserved : List Char := '0' :: '9' :: separators

def slotText (r : Record) (c : Context) (k : Slot) : Str := chars (slot r c k)

section Arcs
variable {W : Type*} [One W] {ord : HashOrder} {args : Args} {M : Machine W} {r r' : Record}
  {c d : Context}
  (hV1 : CharSymbols (· ∉ reserved) args.V1) (hV2 : CharSymbols (· ∉ reserved) args.V2)

theorem CharSymbols.mono {ok ok' : Char → Prop} {V : List Sym} (hV : CharSymbols ok V)
    (hok : ∀ x, ok x → ok' x) : CharSymbols ok' V :=
  ⟨hV.sharp, fun v hv => (hV.single v hv).imp fun x hx => ⟨hx.1, hok x hx.2⟩⟩

include hV1

theorem exists_char_urc (hc : IsKey args c) : ∀ s ∈ c.urc, ∃ x, s.toList = [x] := fun s hs =>
  hV1.exists_char (hc.urc_mem s hs)

theorem fired_eq (hc : IsKey args c) (hsource : r.source = some c) (hact : r.action ≠ .ABS) :
    fired r = masks.map fun mask => maskedText mask (slotText r c) := by
  have hurc := exists_char_urc hV1 hc
  have htake : chars (c.urc.take 1) = (chars c.urc).take 1 := by
    rw [chars_eq_map hurc, chars_eq_map fun s hs => hurc s (List.mem_of_mem_take hs), List.map_take]
  have hdrop : chars (c.urc.drop 1) = (chars c.urc).drop 1 := by
    rw [chars_eq_map hurc, chars_eq_map fun s hs => hurc s (List.mem_of_mem_drop hs), List.map_drop]
  rw [fired, if_neg hact, hsource, Option.elim_some, features, ← templates_eq]
  by_cases hins : r.action = .INS
  · simp only [slotText, slot, if_pos hins, chars_singleton]
  · simp only [slotText, slot, if_neg hins, chars_singleton, htake, hdrop]

theorem maskedText_mem_fired (hc : IsKey args c) (hsource : r.source = some c)
    (hact : r.action ≠ .ABS) {m : List Slot} (hm : m ∈ masks) :
    maskedText m (slotText r c) ∈ fired r := by
  rw [fired_eq hV1 hc hsource hact]
  exact List.mem_map_of_mem hm

theorem rowIds_eq (hc : IsKey args c) (hsource : r.source = some c) (hact : r.action ≠ .ABS)
    (order : List Str) :
    rowIds order r = masks.map fun mask => number order (maskedText mask (slotText r c)) := by
  rw [rowIds, if_neg hact, fired_eq hV1 hc hsource hact, List.map_map]
  rfl

include hV2

/-- The text of a slot tells what it holds. -/
theorem slotText_inj (hc : IsKey args c) (hd : IsKey args d) {k : Slot}
    (h : slotText r c k = slotText r' d k) : slot r c k = slot r' d k := by
  have hurc := exists_char_urc hV1 hc
  have hurd := exists_char_urc hV1 hd
  have heps {w : List Sym} (hw : ∀ s ∈ w, ∃ x, s.toList = [x]) :
      chars [epsilon] ≠ chars (w.take 1) := by
    rw [chars_eq_map fun s hs => hw s (List.mem_of_mem_take hs)]
    intro heq
    have hlength : 5 = ((w.take 1).map fun s => s.toList.headD '#').length :=
      congrArg List.length heq
    rw [List.length_map, List.length_take] at hlength
    omega
  cases k with
  | s =>
    simp only [slotText, slot] at h ⊢
    split_ifs at h ⊢
    · rfl
    · exact absurd h (heps hurd)
    · exact absurd h.symm (heps hurc)
    · exact chars_inj (fun s hs => hurc s (List.mem_of_mem_take hs))
        (fun s hs => hurd s (List.mem_of_mem_take hs)) h
  | t =>
    rw [slotText, slotText, slot, slot, chars_singleton, chars_singleton] at h
    exact congrArg (fun v => [v]) (String.toList_injective h)
  | upperLeft =>
    exact chars_inj (fun s hs => hV1.exists_char (hc.ulc_mem s hs))
      (fun s hs => hV1.exists_char (hd.ulc_mem s hs)) h
  | upperRight =>
    have hrest {q : Record} {b : Context} (hb : ∀ s ∈ b.urc, ∃ x, s.toList = [x]) :
        ∀ s ∈ slot q b .upperRight, ∃ x, s.toList = [x] := by
      intro s hs
      simp only [slot] at hs
      split_ifs at hs
      · exact hb s hs
      · exact hb s (List.mem_of_mem_drop hs)
    exact chars_inj (hrest hurc) (hrest hurd) h
  | lowerLeft =>
    exact chars_inj (fun s hs => hV2.exists_char (hc.llc_mem s hs))
      (fun s hs => hV2.exists_char (hd.llc_mem s hs)) h

/-- The separator and the mask are in no slot. -/
theorem unmarked_slotText (h : contextualEdit W ord args = some M) {e : ℕ}
    (hr : M.record? args e = some r) (hc : IsKey args c) : Unmarked (slotText r c) := by
  have hno {x : Char} (hx : x ∈ reserved) (hformat : x ∉ formatChars) (k : Slot) :
      x ∉ slotText r c k := by
    have h1 := hV1.notMem (not_not.mpr hx)
    have h2 := hV2.notMem (not_not.mpr hx)
    have hsharp : x ≠ '#' := fun heq => hformat (heq ▸ List.mem_cons_self)
    have hparts := notMem_contextParts h1 hc hsharp (.inr h2)
    have hfields := notMem_recordFields h1 h h2 hformat hr
    have hurc : ∀ s ∈ c.urc, x ∉ s.toList := fun s hs hmem =>
      hparts (chars c.urc) (by simp [contextParts]) (mem_chars.mpr ⟨s, hs, hmem⟩)
    rw [slotText]
    cases k with
    | s =>
      rw [mem_chars]
      rintro ⟨s, hs, hmem⟩
      simp only [slot] at hs
      split_ifs at hs
      · have hsub : epsilon.toList ⊆ formatChars := by decide
        exact hformat (hsub (List.mem_singleton.mp hs ▸ hmem))
      · exact hurc s (List.mem_of_mem_take hs) hmem
    | t =>
      rw [mem_chars]
      rintro ⟨s, hs, hmem⟩
      exact hfields r.olabel.toList (by simp [recordFields]) (List.mem_singleton.mp hs ▸ hmem)
    | upperLeft => exact hparts _ (by simp [contextParts, slot])
    | upperRight =>
      rw [mem_chars]
      rintro ⟨s, hs, hmem⟩
      simp only [slot] at hs
      split_ifs at hs
      · exact hurc s hs hmem
      · exact hurc s (List.mem_of_mem_drop hs) hmem
    | lowerLeft => exact hparts _ (by simp [contextParts, slot])
  exact fun k => ⟨hno (by decide) (by decide) k, hno (by decide) (by decide) k⟩

/-- Two features have one number if they are of one template and agree on what it shows. -/
theorem number_maskedText_iff (h : contextualEdit W ord args = some M) {a b : ℕ}
    (ha : M.record? args a = some r) (hb : M.record? args b = some r') (hc : IsKey args c)
    (hd : IsKey args d) {m m' : List Slot} (hm : m ∈ masks) (hm' : m' ∈ masks) {order : List Str}
    (hmem : maskedText m (slotText r c) ∈ order) :
    number order (maskedText m (slotText r c)) = number order (maskedText m' (slotText r' d)) ↔
      m = m' ∧ ∀ k, k ∉ m → slot r c k = slot r' d k := by
  rw [number_inj hmem,
    maskedText_inj (unmarked_slotText hV1 hV2 h ha hc) (unmarked_slotText hV1 hV2 h hb hd)]
  constructor
  · rintro ⟨hmask, hslot⟩
    exact ⟨masks_ext hm hm' hmask, fun k hk => slotText_inj hV1 hV2 hc hd (hslot k hk)⟩
  · rintro ⟨rfl, hslot⟩
    exact ⟨fun k => Iff.rfl, fun k hk => congrArg chars (hslot k hk)⟩

section Rows
variable (h : contextualEdit W ord args = some M) {a : ℕ} (ha : M.record? args a = some r)
  (hc : IsKey args c) (hs : r.source = some c) (hact : r.action ≠ .ABS) {order : List Str}
  (hfired : fired r ⊆ order)

include h ha hc hs hact hfired

theorem getElem?_rowIds_iff {b : ℕ} (hb : M.record? args b = some r') (hd : IsKey args d)
    (hs' : r'.source = some d) (hact' : r'.action ≠ .ABS) (i j : Fin masks.length) :
    (rowIds order r)[(i : ℕ)]? = (rowIds order r')[(j : ℕ)]? ↔
      i = j ∧ ∀ k, k ∉ masks[i] → slot r c k = slot r' d k := by
  have hi := List.getElem_mem i.isLt
  have htied := number_maskedText_iff hV1 hV2 h ha hb hc hd hi (List.getElem_mem j.isLt)
    (hfired (maskedText_mem_fired hV1 hc hs hact hi))
  rw [nodup_masks.getElem_inj_iff, ← Fin.ext_iff] at htied
  simp only [rowIds_eq hV1 hc hs hact, rowIds_eq hV1 hd hs' hact', List.getElem?_map, Fin.is_lt,
    List.getElem?_eq_getElem, Option.map_some, Option.some.injEq]
  exact htied

theorem nodup_rowIds : (rowIds order r).Nodup := by
  rw [rowIds_eq hV1 hc hs hact]
  refine List.Nodup.map_on (fun m hm m' hm' heq => ?_) nodup_masks
  have hmem := hfired (maskedText_mem_fired hV1 hc hs hact hm)
  exact ((number_maskedText_iff hV1 hV2 h ha ha hc hc hm hm' hmem).mp heq).1

end Rows

end Arcs

/-! ### The ids of an arc -/

theorem filter_rowIds (order : List Str) (r : Record) :
    (rowIds order r).filter (· ≠ 0) = (fired r).map (number order) := by
  rw [rowIds]
  by_cases hact : r.action = .ABS
  · rw [if_pos hact, fired, if_pos hact]
    rfl
  · rw [if_neg hact]
    refine List.filter_eq_self.mpr fun i hi => ?_
    obtain ⟨f, -, rfl⟩ := List.mem_map.mp hi
    exact decide_eq_true (Nat.succ_ne_zero _)

/-- The numbers in a table appear in the order 1, 2, 3 and so on. -/
theorem exists_firstSeen_ids (r : ℕ → Record) (n : ℕ) : ∃ K, firstSeen []
    (((List.range n).flatMap fun e => rowIds (featureOrder r n) (r e)).filter (· ≠ 0)) =
      List.range' 1 K := by
  have hids : ((List.range n).flatMap fun e => rowIds (featureOrder r n) (r e)).filter (· ≠ 0) =
      ((List.range n).flatMap fun e => fired (r e)).map (number (featureOrder r n)) := by
    rw [List.filter_flatMap, List.map_flatMap]
    exact List.flatMap_congr fun e _ => filter_rowIds (featureOrder r n) (r e)
  exact ⟨_, hids ▸ firstSeen_map_number _⟩

theorem zero_mem_rowIds (order : List Str) (r : Record) : 0 ∈ rowIds order r ↔ r.action = .ABS := by
  rw [rowIds]
  split_ifs with hact
  · exact iff_of_true (List.mem_singleton.mpr rfl) hact
  · refine iff_of_false (fun hmem => ?_) hact
    obtain ⟨f, -, hf⟩ := List.mem_map.mp hmem
    exact Nat.succ_ne_zero _ hf

/-- The table that the two programs make of a transducer: equal ids mean the same template
and the same unmasked slots. -/
structure BackoffTied {W : Type*} (args : Args) (M : Machine W) (r : ℕ → Record)
    (ids : ℕ → List ℕ) : Prop where
  record : ∀ e < M.fst.numArcs, M.record? args e = some (r e)
  printed : ∃ text, arcToActionText args M = some text ∧
    featurize text =
      some (terminated '\n' ((List.range M.fst.numArcs).map fun e => rowText e (ids e)))
  tied : ∀ a < M.fst.numArcs, ∀ b < M.fst.numArcs, (r a).action ≠ .ABS → (r b).action ≠ .ABS →
    ∃ c d, (r a).source = some c ∧ (r b).source = some d ∧ ∀ i j : Fin masks.length,
      (ids a)[(i : ℕ)]? = (ids b)[(j : ℕ)]? ↔ i = j ∧ ∀ k, k ∉ masks[i] →
        slot (r a) c k = slot (r b) d k
  distinct : ∀ a < M.fst.numArcs, (r a).action ≠ .ABS → (ids a).length = 14 ∧ (ids a).Nodup
  consecutive : ∃ K, firstSeen [] (((List.range M.fst.numArcs).flatMap ids).filter (· ≠ 0)) =
    List.range' 1 K
  zero : ∀ a < M.fst.numArcs, 0 ∈ ids a ↔ (r a).action = .ABS

theorem backoff_tied {W : Type*} [One W] {ord : HashOrder} {args : Args} {M : Machine W}
    (h : contextualEdit W ord args = some M) (hurc : 1 ≤ args.sizes.urcMax)
    (hV1 : CharSymbols (· ∉ reserved) args.V1) (hV2 : CharSymbols (· ∉ reserved) args.V2) :
    ∃ r ids, BackoffTied args M r ids := by
  have hmono {V : List Sym} (hV : CharSymbols (· ∉ reserved) V) : CharSymbols (· ∉ separators) V :=
    hV.mono fun x hx hmem => hx (by simp [reserved, hmem])
  obtain ⟨r, text, -, hr, hwritten, hprinted, -, -⟩ :=
    exists_pipeline h hurc (hmono hV1) (hmono hV2)
  have hsource {e : ℕ} (he : e < M.fst.numArcs) : ∃ c, IsKey args c ∧ (r e).source = some c := by
    obtain ⟨c, m, t, hc, -, -, hrec⟩ :=
      exists_move_of_record? h ⟨hV1.unreserved, hV2.unreserved⟩ (hr e he)
    exact ⟨c, hc, hrec ▸ rfl⟩
  have hfired {e : ℕ} (he : e < M.fst.numArcs) :
      fired (r e) ⊆ featureOrder r M.fst.numArcs := fun f hf =>
    mem_firstSeen.mpr (.inr (List.mem_flatMap.mpr ⟨e, List.mem_range.mpr he, hf⟩))
  refine ⟨r, fun e => rowIds (featureOrder r M.fst.numArcs) (r e), hr, ⟨text, hwritten, hprinted⟩,
    fun a ha b hb hact hact' => ?_, fun a ha hact => ?_, exists_firstSeen_ids r _,
    fun a _ => zero_mem_rowIds _ (r a)⟩
  · obtain ⟨c, hc, hs⟩ := hsource ha
    obtain ⟨d, hd, hs'⟩ := hsource hb
    exact ⟨c, d, hs, hs', getElem?_rowIds_iff hV1 hV2 h (hr a ha) hc hs hact (hfired ha)
      (hr b hb) hd hs' hact'⟩
  · obtain ⟨c, hc, hs⟩ := hsource ha
    refine ⟨?_, nodup_rowIds hV1 hV2 h (hr a ha) hc hs hact (hfired ha)⟩
    rw [rowIds_eq hV1 hc hs hact, List.length_map]
    rfl

theorem backoff_tied_one_one_one : ∃ M, contextualEdit ℚ insertionOrder
    (smallArgs ⟨1, 1, 1⟩) = some M ∧
    ∃ r ids, BackoffTied (smallArgs ⟨1, 1, 1⟩) M r ids := by
  obtain ⟨M, hM⟩ := exists_contextualEdit ℚ insertionOrder
    (show Completes (smallArgs ⟨1, 1, 1⟩) from .inl le_rfl)
  exact ⟨M, hM, backoff_tied hM le_rfl (charAlphabet_a (by decide)).toCharSymbols
    (charAlphabet_b (by decide)).toCharSymbols⟩

end StochasticEdit.Features
