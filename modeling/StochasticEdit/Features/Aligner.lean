import StochasticEdit.Features.RoundTrip

/-! The alignment that the sandbox prints (`aligner` of `sandbox.cpp`). It replays the arcs
of a decoded path: the absorbed symbols wait in a queue, and the edits take them from its
front. The queue is always the upper right window of the state that the path has reached. -/

namespace StochasticEdit.Features

open Wfst Generator Text

/-! ### The program -/

/-- `upper`, `upper_string` and `lower_string`. -/
structure Alignment where
  upper : List Str
  upperString : Str
  lowerString : Str

/-- `if (lower_char.compare("<EPS>") == 0) lower_char = " "`. -/
def blankEpsilon (lowerChar : Str) : Str := if lowerChar = epsilon.toList then [' '] else lowerChar

/-- The body of the loop over the arc ids. A part of the record that is not there and the
front of an empty queue are undefined behaviour. -/
def alignArc (arcMapper : ℤ → Option Str) (al : Alignment) (token : Str) : Option Alignment := do
  let split := arcIdSplit ((arcMapper (atoi token)).getD [])
  let act ← split[4]?
  if act = "FINAL".toList then
    let lowerChar ← split[3]?
    let front ← al.upper.head?
    return ⟨al.upper, al.upperString ++ front, al.lowerString ++ blankEpsilon lowerChar⟩
  else if act = "ABS".toList then
    -- the blank for `<EPS>` goes into a variable of the inner block and is lost
    let upperChar ← split[2]?
    return ⟨al.upper ++ [trim upperChar], al.upperString, al.lowerString⟩
  else if act = "INS".toList then
    let lowerChar ← split[3]?
    return ⟨al.upper, al.upperString ++ [' '], al.lowerString ++ trim lowerChar⟩
  else
    let lowerChar ← split[3]?
    let front ← al.upper.head?
    return ⟨al.upper.tail, al.upperString ++ front, al.lowerString ++ blankEpsilon (trim lowerChar)⟩

def alignLoop (arcMapper : ℤ → Option Str) : Alignment → List Str → Option Alignment
  | al, [] => some al
  | al, token :: split => do
    let al ← alignArc arcMapper al token
    alignLoop arcMapper al split

/-- The upper and the lower row. -/
def aligner (decoded : Str) (arcMapper : ℤ → Option Str) : Option (Str × Str) :=
  (alignLoop arcMapper ⟨[], [], []⟩ (decoded.splitOn ' ')).map fun al =>
    (al.upperString, al.lowerString)

/-! ### One arc -/

/-- The absorbed symbols that are not consumed yet. -/
def queue (c : Context) : List Str := c.urc.map String.toList

/-- The columns that a move out of `c` adds to the upper and the lower row. -/
def columns (c : Context) : Move → Str × Str
  | .final => (['#'], [' '])
  | .ins v => ([' '], v.toList)
  | .sub v => (chars (c.urc.take 1), v.toList)
  | .del => (chars (c.urc.take 1), [' '])
  | .abs _ => ([], [])

section Queue
variable {c : Context} {s : Sym} {w : List Sym} (h : c.urc = s :: w)

include h

theorem queue_cons : queue c = s.toList :: w.map String.toList := by rw [queue, h, List.map_cons]

theorem queue_of_bump2 {d : Context} (hd : d.urc = bump2 c.urc) :
    queue d = w.map String.toList := by
  rw [queue, hd, h]
  rfl

theorem front_cons : chars (c.urc.take 1) = s.toList := by
  rw [h]
  exact chars_singleton s

end Queue

section Symbols
variable {V : List Sym} (hV : CharSymbols (Evaluation.isSpace · = false) V)

include hV

/-- A symbol of the alphabet is one character that is not blank. -/
theorem exists_char {v : Sym} (hv : v ∈ V) :
    ∃ x, v.toList = [x] ∧ x ≠ ' ' ∧ trim v.toList = v.toList := by
  obtain ⟨x, hx, hspace⟩ := hV.single v hv
  refine ⟨x, hx, ?_, trim_eq fun y hy => ?_⟩
  · rintro rfl
    exact absurd hspace (by decide)
  · rw [hx, List.mem_singleton] at hy
    rw [hy, hspace]

theorem exists_char_or_sharp {v : Sym} (hv : v ∈ V ∨ v = stopStartChar) :
    ∃ x, v.toList = [x] ∧ x ≠ ' ' ∧ trim v.toList = v.toList := by
  rcases hv with hv | rfl
  · exact exists_char hV hv
  · exact ⟨'#', rfl, by decide, by decide⟩

theorem blankEpsilon_symbol {v : Sym} (hv : v ∈ V) : blankEpsilon v.toList = v.toList := by
  obtain ⟨x, hx, -⟩ := exists_char hV hv
  refine if_neg fun heps => ?_
  have hlength : epsilon.toList.length = 1 := congrArg List.length (heps.symm.trans hx)
  exact absurd hlength (by decide)

end Symbols

section Arc
variable {args : Args} {c : Context} {m : Move} {arcMapper : ℤ → Option Str} {e : ℕ} {u l : Str}

/-- The parts of the record of an arc. -/
theorem arcIdSplit_entry {t : Option Context}
    (hentry : arcMapper e = some (recordText ⟨some c, t, m.isym, m.osym, m.action⟩))
    (htab : ∀ f ∈ recordFields ⟨some c, t, m.isym, m.osym, m.action⟩, '\t' ∉ f) :
    arcIdSplit ((arcMapper (atoi (str e))).getD []) =
      [contextText (some c), contextText t, m.isym.toList, m.osym.toList, actionText m.action] := by
  rw [atoi_str, hentry, Option.getD_some]
  exact splitOn_recordText_iff.mpr htab

variable (hV1 : CharSymbols (Evaluation.isSpace · = false) args.V1)
  (hV2 : CharSymbols (Evaluation.isSpace · = false) args.V2) (hu : args.sizes.ulcMax ≤ 1)
  (hl : args.sizes.llcMax ≤ 1) (hc : IsKey args c)

include hV1 hV2 hu hl hc

/-- An arc between two contexts adds its columns and keeps the queue in step. -/
theorem alignArc_step {d : Context} (hm : (m, some d) ∈ moves args c)
    (hentry : arcMapper e = some (recordText ⟨some c, some d, m.isym, m.osym, m.action⟩))
    (htab : ∀ f ∈ recordFields ⟨some c, some d, m.isym, m.osym, m.action⟩, '\t' ∉ f) :
    alignArc arcMapper ⟨queue c, u, l⟩ (str e) =
      some ⟨queue d, u ++ (columns c m).1, l ++ (columns c m).2⟩ := by
  have hsplit := arcIdSplit_entry hentry htab
  unfold alignArc
  rw [hsplit]
  cases m with
  | final => simpa using (mem_moves_final.mp hm).1
  | ins v =>
    obtain ⟨-, hv, hd⟩ := mem_moves_ins.mp hm
    obtain rfl := Option.some.inj hd
    obtain ⟨-, -, -, htrim⟩ := exists_char hV2 hv
    show some (Alignment.mk (queue c) (u ++ [' ']) (l ++ trim v.toList)) = _
    rw [htrim]
    rfl
  | sub v =>
    obtain ⟨-, hv, s, w, hurc, -, hd⟩ := mem_moves_sub.mp hm
    obtain rfl := Option.some.inj hd
    obtain ⟨-, -, -, htrim⟩ := exists_char hV2 hv
    rw [queue_cons hurc]
    show some
      (Alignment.mk (w.map String.toList) (u ++ s.toList) (l ++ blankEpsilon (trim v.toList))) = _
    have hqueue : queue (subKey args.sizes c s v) = w.map String.toList := queue_of_bump2 hurc rfl
    rw [htrim, blankEpsilon_symbol hV2 hv, ← front_cons hurc, ← hqueue]
    rfl
  | del =>
    obtain ⟨-, s, w, hurc, -, hd⟩ := mem_moves_del.mp hm
    obtain rfl := Option.some.inj hd
    rw [queue_cons hurc]
    show some (Alignment.mk (w.map String.toList) (u ++ s.toList) (l ++ [' '])) = _
    have hqueue : queue (delKey args.sizes c s) = w.map String.toList := queue_of_bump2 hurc rfl
    rw [← front_cons hurc, ← hqueue]
    rfl
  | abs v =>
    obtain ⟨hb, hv, -, -, hd⟩ := mem_moves_abs.mp hm
    obtain rfl := Option.some.inj hd
    obtain ⟨-, -, -, htrim⟩ := exists_char_or_sharp hV1 hv
    show some (Alignment.mk (queue c ++ [trim v.toList]) u l) = _
    have hqueue : queue (absKey args.sizes c v) = queue c ++ [v.toList] := by
      unfold queue absKey
      rw [addReverse_of_lt (length_urc_lt hu hl hc hb), List.map_append, List.map_singleton]
    rw [htrim, ← hqueue]
    show _ = some (Alignment.mk _ (u ++ []) (l ++ []))
    rw [List.append_nil, List.append_nil]

omit hV1 hV2 hu hl hc in
/-- The last arc shows the boundary symbol at the front of the queue and leaves it there. -/
theorem alignArc_final (hr : 1 ≤ args.sizes.urcMax) (hm : (Move.final, none) ∈ moves args c)
    (hentry : arcMapper e = some (recordText ⟨some c, none, epsilon, epsilon, .FINAL⟩))
    (htab : ∀ f ∈ recordFields ⟨some c, none, epsilon, epsilon, .FINAL⟩, '\t' ∉ f) :
    alignArc arcMapper ⟨queue c, u, l⟩ (str e) = some ⟨queue c, u ++ ['#'], l ++ [' ']⟩ := by
  obtain ⟨-, hlength, hall⟩ := mem_moves_final.mp hm
  obtain ⟨s, w, hurc⟩ := List.exists_cons_of_length_pos (hlength ▸ hr)
  have hs : s = stopStartChar := hall s (by simp [hurc])
  have hsplit := arcIdSplit_entry (m := .final) hentry htab
  unfold alignArc
  rw [hsplit, queue_cons hurc, hs]
  rfl

omit hu hl in
/-- The two columns of a move have one length, and without blanks they are the symbol that
it consumes and the one that it writes. -/
theorem columns_spec {d : Context} (hm : (m, some d) ∈ moves args c) :
    (columns c m).1.length = (columns c m).2.length ∧
      (columns c m).1.filter (· ≠ ' ') = chars (taken c m) ∧
      (columns c m).2.filter (· ≠ ' ') = chars (spelled m.edit?.toList) := by
  have hfront {s : Sym} {w : List Sym} (hurc : c.urc = s :: w) :
      ∃ x, chars (c.urc.take 1) = [x] ∧ x ≠ ' ' := by
    obtain ⟨x, hx, hne, -⟩ := exists_char_or_sharp hV1 (hc.urc_mem s (by simp [hurc]))
    exact ⟨x, by rw [front_cons hurc, hx], hne⟩
  cases m with
  | final => simpa using (mem_moves_final.mp hm).1
  | ins v =>
    obtain ⟨x, hx, hne, -⟩ := exists_char hV2 (mem_moves_ins.mp hm).2.1
    simp [columns, taken, Move.edit?, spelled, Edit.symbol?, hx, hne, chars_nil, chars_singleton]
  | sub v =>
    obtain ⟨-, hv, s, w, hurc, -, -⟩ := mem_moves_sub.mp hm
    obtain ⟨x, hx, hne, -⟩ := exists_char hV2 hv
    obtain ⟨y, hy, hne'⟩ := hfront hurc
    simp [columns, taken, Move.edit?, spelled, Edit.symbol?, hx, hne, hy, hne', chars_singleton]
  | del =>
    obtain ⟨-, s, w, hurc, -, -⟩ := mem_moves_del.mp hm
    obtain ⟨y, hy, hne'⟩ := hfront hurc
    have hnone : chars (spelled Move.del.edit?.toList) = [] := rfl
    rw [hnone]
    simp [columns, taken, hy, hne']
  | abs v => exact ⟨rfl, rfl, rfl⟩

end Arc

/-! ### The whole path -/

section Path
variable {W : Type*} [One W] {ord : HashOrder} {args : Args} {M : Machine W} {c : Context}
  {arcMapper : ℤ → Option Str} (h : contextualEdit W ord args = some M)
  (hV1 : CharSymbols (Evaluation.isSpace · = false) args.V1)
  (hV2 : CharSymbols (Evaluation.isSpace · = false) args.V2) (hu : args.sizes.ulcMax ≤ 1)
  (hl : args.sizes.llcMax ≤ 1) (hr : 1 ≤ args.sizes.urcMax)

include h hV1 hV2 hu hl hr

/-- From any state on the path, with the right window in the queue, the rest of the path
adds rows of one length that spell the rest of the upper string with a boundary symbol
and the rest of the lower string. -/
theorem Traces.alignLoop_eq {p : List ℕ} {ms : List Move} (hp : Traces ord args M c p ms)
    (hc : IsKey args c) (hmap : ∀ e ∈ p, arcMapper e = (M.record? args e).map recordText)
    (u l : Str) :
    ∃ al u' l' x, alignLoop arcMapper ⟨queue c, u, l⟩ (p.map str) = some al ∧
      al.upperString = u ++ u' ∧ al.lowerString = l ++ l' ∧ u'.length = l'.length ∧
      Pending args c (reading ms) x ∧ u'.filter (· ≠ ' ') = chars x ++ ['#'] ∧
      l'.filter (· ≠ ' ') = chars (spelled (editsOf ms)) := by
  have hV : args.Unreserved := ⟨hV1.unreserved, hV2.unreserved⟩
  have hsz : Completes args := .inl hu
  have htab {e : ℕ} {r : Record} (hrec : M.record? args e = some r) :
      ∀ f ∈ recordFields r, '\t' ∉ f :=
    notMem_recordFields_of_isSpace h hV1 hV2 (by decide) (by decide) hrec
  induction hp generalizing u l with
  | @final c e hm he =>
    have hrec := record?_of_move h hV hc hm he
    have hentry := hmap e (by simp)
    rw [hrec, Option.map_some] at hentry
    obtain ⟨-, hlength, hall⟩ := mem_moves_final.mp hm
    have hurc : c.urc = padding args := List.eq_replicate_iff.mpr ⟨hlength, hall⟩
    refine ⟨⟨queue c, u ++ ['#'], l ++ [' ']⟩, ['#'], [' '], [], ?_, rfl, rfl, rfl,
      ?_, by decide, rfl⟩
    · show (alignArc arcMapper ⟨queue c, u, l⟩ (str e)).bind _ = _
      rw [alignArc_final hr hm hentry (htab hrec)]
      rfl
    · exact ⟨by simp, by simp [reading, Move.read?, hurc]⟩
  | @step c d e m p ms hm he hrest ih =>
    have hrec := record?_of_move h hV hc hm he
    have hentry := hmap e (by simp)
    rw [hrec, Option.map_some] at hentry
    obtain ⟨hlength, hupper, hlower⟩ := columns_spec hV1 hV2 hc hm
    obtain ⟨al, u', l', x, hloop, hu', hl', hlen, hpend, hfu, hfl⟩ :=
      ih (target_isKey hsz hc hm) (fun e he => hmap e (List.mem_cons_of_mem _ he))
        (u ++ (columns c m).1) (l ++ (columns c m).2)
    refine ⟨al, (columns c m).1 ++ u', (columns c m).2 ++ l', taken c m ++ x, ?_, ?_, ?_,
      ?_, ?_, ?_, ?_⟩
    · show (alignArc arcMapper ⟨queue c, u, l⟩ (str e)).bind _ = _
      rw [alignArc_step hV1 hV2 hu hl hc hm hentry (htab hrec), Option.bind_some, hloop]
    · rw [hu', List.append_assoc]
    · rw [hl', List.append_assoc]
    · rw [List.length_append, List.length_append, hlength, hlen]
    · rw [reading_cons]
      exact hpend.of_move hu hl hc hm
    · rw [List.filter_append, hupper, hfu, chars_append, List.append_assoc]
    · rw [List.filter_append, hlower, hfl, editsOf_cons, spelled_append, chars_append]

/-- The rows of an accepting path have one length. Without blanks the upper one is the upper
string with one boundary symbol, and the lower one is the lower string. -/
theorem aligner_rows {x y : List Generator.Sym} {p : List ℕ}
    (hp : M.Labels args (x ++ padding args) y p)
    (hmap : ∀ e ∈ p, arcMapper e = (M.record? args e).map recordText) :
    ∃ upper lower, aligner ([' '].intercalate (p.map str)) arcMapper = some (upper, lower) ∧
      upper.length = lower.length ∧ upper.filter (· ≠ ' ') = chars x ++ ['#'] ∧
      lower.filter (· ≠ ' ') = chars y := by
  have hV : args.Unreserved := ⟨hV1.unreserved, hV2.unreserved⟩
  obtain ⟨ms, htraces, hread, hwrite⟩ := (labels_iff h hV hu hl).mp hp
  have hstart : IsKey args (startKey args.sizes) := startKey_isKey
  have hqueue : queue (startKey args.sizes) = [] := by rw [queue, startKey_urc, List.map_nil]
  obtain ⟨al, u, l, x', hloop, hupper, hlower, hlength, hpend, hfu, hfl⟩ :=
    Traces.alignLoop_eq h hV1 hV2 hu hl hr htraces hstart hmap [] []
  obtain rfl : x = x' := List.append_cancel_right (hread.symm.trans (pending_start.mp hpend).2)
  have hne : p.map str ≠ [] := by
    cases htraces <;> exact List.cons_ne_nil _ _
  have hno : ∀ token ∈ p.map str, ' ' ∉ token := by
    intro token htoken
    obtain ⟨e, -, rfl⟩ := List.mem_map.mp htoken
    exact notMem_str (by decide) e
  refine ⟨u, l, ?_, hlength, hfu, by rw [hfl, hwrite]⟩
  rw [hqueue] at hloop
  rw [aligner, (splitOn_intercalate_iff hne).mpr hno, hloop, Option.map_some, hupper, hlower]
  rfl

end Path

theorem aligner_rows_one_one_one : ∃ M, contextualEdit ℚ insertionOrder
    (smallArgs ⟨1, 1, 1⟩) = some M ∧
    ∃ text arcMapper p upper lower, arcToActionText (smallArgs ⟨1, 1, 1⟩) M = some text ∧
      readArcMapper text = some arcMapper ∧
      M.Labels (smallArgs ⟨1, 1, 1⟩) (["a"] ++ padding (smallArgs ⟨1, 1, 1⟩)) ["b", "b"] p ∧
      aligner ([' '].intercalate (p.map str)) arcMapper = some (upper, lower) ∧
      upper.length = lower.length ∧ upper.filter (· ≠ ' ') = chars ["a"] ++ ['#'] ∧
      lower.filter (· ≠ ' ') = chars ["b", "b"] := by
  obtain ⟨M, hM⟩ := exists_contextualEdit ℚ insertionOrder
    (show Completes (smallArgs ⟨1, 1, 1⟩) from .inl le_rfl)
  have hV1 : CharSymbols (Evaluation.isSpace · = false) (smallArgs ⟨1, 1, 1⟩).V1 :=
    (charAlphabet_a (by decide)).toCharSymbols
  have hV2 : CharSymbols (Evaluation.isSpace · = false) (smallArgs ⟨1, 1, 1⟩).V2 :=
    (charAlphabet_b (by decide)).toCharSymbols
  obtain ⟨text, arcMapper, htext, hread, hmap⟩ := exists_arcMapper hM hV1 hV2 fun e r hr =>
    (clean_of_alphabets hM hV1 hV2 (by decide) (by decide) (by decide) (.inr (by decide)) hr).1
  obtain ⟨p, hp⟩ := (exists_labels_iff hM (smallArgs_valid ⟨1, 1, 1⟩) le_rfl le_rfl le_rfl
    (u := ["a"] ++ padding (smallArgs ⟨1, 1, 1⟩)) (y := ["b", "b"])).mpr
      ⟨⟨["a"], by decide, rfl⟩, by decide⟩
  have hlt : ∀ e ∈ p, e < M.fst.numArcs := fun e he => by
    obtain ⟨r, hr⟩ := hp.1
    obtain ⟨q, a, ha⟩ := VectorFst.exists_arc_of_mem hr he
    exact VectorFst.lt_numArcs_of_arc? ha
  obtain ⟨upper, lower, hrows⟩ := aligner_rows hM hV1 hV2 le_rfl le_rfl le_rfl hp fun e he =>
    hmap e (hlt e he)
  exact ⟨M, hM, text, arcMapper, p, upper, lower, htext, hread, hp, hrows⟩

end StochasticEdit.Features
