import StochasticEdit.Features.Rows

/-! What the lines of `arc_to_action` are read as by `featurize.py` and by `arc_mapper` and
`aligner` of `sandbox.cpp`. Nothing is escaped, so a line is read as it was meant if and
only if no symbol in it is one of the separators around it. -/

namespace StochasticEdit.Features

open Wfst Generator Text

/-! ### The readers of the sandbox -/

/-- The loop that fills `arc_mapper`; a second token that does not exist is undefined
behaviour. -/
def arcMapperLoop : (ℤ → Option Str) → List Str → Option (ℤ → Option Str)
  | arcMapper, [] => some arcMapper
  | arcMapper, line :: lines =>
    match line.splitOn ',' with
    | first :: second :: _ =>
      arcMapperLoop (Function.update arcMapper (atoi first) (some second)) lines
    | _ => none

/-- `arc_mapper` for a file with the given content. -/
def readArcMapper (text : Str) : Option (ℤ → Option Str) :=
  arcMapperLoop (fun _ => none) (fileLines text)

/-- `boost::trim`. -/
def trim (s : Str) : Str :=
  ((s.dropWhile Evaluation.isSpace).reverse.dropWhile Evaluation.isSpace).reverse

/-- `arc_id_split` of `aligner`. -/
def arcIdSplit (entry : Str) : List Str := entry.splitOn '\t'

/-- `lower_char`. -/
def lowerChar (entry : Str) : Option Str := (arcIdSplit entry)[3]?.map trim

/-! ### Reading what was written -/

/-- The variables of `featurize.py` hold the parts of the record. -/
def FeaturizeReads (line : Str) (e : ℕ) (r : Record) : Prop :=
  ∃ rest, arcIdAndRest line = some (str e, rest) ∧ contexts rest = contextParts r.source ∧
    outputSymbol rest = some r.olabel.toList ∧ action rest = some (actionText r.action)

/-- The entry of the arc has the parts of the record. -/
def SandboxReads (arcMapper : ℤ → Option Str) (e : ℕ) (r : Record) : Prop :=
  ∃ entry, arcMapper e = some entry ∧ (arcIdSplit entry)[0]? = some (contextText r.source) ∧
    lowerChar entry = some r.olabel.toList ∧ (arcIdSplit entry)[4]? = some (actionText r.action)

/-- Both programs read every line as what it was written for. -/
def RoundTrips {W : Type*} (args : Args) (M : Machine W) : Prop :=
  ∃ text arcMapper, arcToActionText args M = some text ∧ readArcMapper text = some arcMapper ∧
    ∀ e r, M.record? args e = some r → ∃ line, (fileLines text)[e]? = some line ∧
      FeaturizeReads line e r ∧ SandboxReads arcMapper e r

/-- No comma in the record and no hyphen in its windows. -/
def Clean (r : Record) : Prop := ',' ∉ recordText r ∧ ∀ w ∈ contextParts r.source, '-' ∉ w

section Lines
variable {e : ℕ} {r : Record}

theorem splitOn_lineText : (lineText (toString e, r)).splitOn ',' = str e ::
    (recordText r).splitOn ',' :=
  List.splitOn_append_cons_self_of_not_mem (notMem_str (by decide) e) _

/-- `featurize.py` needs a clean record. -/
theorem featurizeReads_iff (h : ∀ f ∈ recordFields r, '\t' ∉ f) :
    FeaturizeReads (lineText (toString e, r)) e r ↔ Clean r := by
  have hsplit := splitOn_recordText_iff.mpr h
  have hid : ',' ∉ str e := notMem_str (by decide) e
  constructor
  · rintro ⟨rest, hline, hcontexts, -, -⟩
    have hparts := arcIdAndRest_iff.mp hline
    rw [splitOn_lineText, List.cons.injEq] at hparts
    obtain ⟨-, hno, hrest⟩ := splitOn_eq_iff.mp hparts.2
    rw [List.intercalate_singleton] at hrest
    rw [hrest] at hno hcontexts
    exact ⟨hno _ (List.mem_singleton_self _), (contexts_eq_iff hsplit).mp hcontexts⟩
  · rintro ⟨hcomma, hhyphen⟩
    exact ⟨recordText r, (arcIdAndRest_eq_iff hid).mpr hcomma, (contexts_eq_iff hsplit).mpr hhyphen,
      outputSymbol_eq hsplit, action_eq hsplit⟩

/-- The entry of a record without commas is the record. -/
theorem sandboxReads_of_entry {arcMapper : ℤ → Option Str} (h : ∀ f ∈ recordFields r, '\t' ∉ f)
    (htrim : trim r.olabel.toList = r.olabel.toList) (hentry : arcMapper e = some (recordText r)) :
    SandboxReads arcMapper e r := by
  have hsplit : arcIdSplit (recordText r) = recordFields r := splitOn_recordText_iff.mpr h
  refine ⟨recordText r, hentry, ?_, ?_, ?_⟩
  · rw [hsplit]
    rfl
  · rw [lowerChar, hsplit]
    exact congrArg some htrim
  · rw [hsplit]
    rfl

end Lines

/-! ### The map -/

theorem arcMapperLoop_append (arcMapper : ℤ → Option Str) (lines lines' : List Str) :
    arcMapperLoop arcMapper (lines ++ lines') =
      (arcMapperLoop arcMapper lines).bind fun arcMapper => arcMapperLoop arcMapper lines' := by
  induction lines generalizing arcMapper with
  | nil => rfl
  | cons line lines ih =>
    rw [List.cons_append, arcMapperLoop, arcMapperLoop]
    split
    · exact ih _
    · rfl

/-- The entry of an arc is its record up to the first comma, and other numbers have none. -/
theorem arcMapperLoop_range (r : ℕ → Record) (n : ℕ) : ∃ arcMapper,
    arcMapperLoop (fun _ => none) (arcLines r n) = some arcMapper ∧
      ∀ e : ℕ, arcMapper e = if e < n then ((recordText (r e)).splitOn ',').head? else none := by
  induction n with
  | zero => exact ⟨_, rfl, fun e => (if_neg (Nat.not_lt_zero e)).symm⟩
  | succ n ih =>
    obtain ⟨arcMapper, hloop, hentry⟩ := ih
    obtain ⟨first, rest, hfirst⟩ :=
      List.exists_cons_of_ne_nil (List.splitOn_ne_nil ',' (recordText (r n)))
    refine ⟨Function.update arcMapper n (some first), ?_, fun e => ?_⟩
    · rw [arcLines, List.range_succ, List.map_append, List.map_singleton,
        arcMapperLoop_append, ← arcLines, hloop,
        Option.bind_some, arcMapperLoop, splitOn_lineText, hfirst]
      simp only [atoi_str]
      rfl
    · by_cases hn : e = n
      · rw [hn, Function.update_self, hfirst, List.head?_cons, if_pos (Nat.lt_succ_self n)]
      · have hiff : e < n ↔ e < n + 1 := by omega
        rw [Function.update_of_ne (by omega), hentry e]
        simp only [hiff]

theorem trim_eq {s : Str} (h : ∀ c ∈ s, Evaluation.isSpace c = false) : trim s = s := by
  have hdrop {t : Str} (ht : ∀ c ∈ t, Evaluation.isSpace c = false) :
      t.dropWhile Evaluation.isSpace = t := by
    cases t with
    | nil => rfl
    | cons c t => exact List.dropWhile_cons_of_neg (by simp [ht c (by simp)])
  rw [trim, hdrop h, hdrop fun c hc => h c (List.mem_reverse.mp hc), List.reverse_reverse]

/-! ### Which records are read back -/

section Records
variable {W : Type*} [One W] {ord : HashOrder} {args : Args} {M : Machine W}
  (h : contextualEdit W ord args = some M)
  (hV1 : CharSymbols (Evaluation.isSpace · = false) args.V1)
  (hV2 : CharSymbols (Evaluation.isSpace · = false) args.V2)

include h hV1 hV2

theorem notMem_recordFields_of_isSpace {x : Char} (hx : Evaluation.isSpace x = true)
    (hformat : x ∉ formatChars) {e : ℕ} {r : Record} (hr : M.record? args e = some r) :
    ∀ f ∈ recordFields r, x ∉ f :=
  notMem_recordFields (hV1.notMem (by simp [hx])) h (hV2.notMem (by simp [hx])) hformat hr

theorem trim_olabel {e : ℕ} {r : Record} (hr : M.record? args e = some r) :
    trim r.olabel.toList = r.olabel.toList := by
  have hspace : (formatChars.all fun x => !Evaluation.isSpace x) = true := by decide
  refine trim_eq fun x hx => ?_
  by_contra hne
  have hfield : r.olabel.toList ∈ recordFields r := by simp [recordFields]
  have hsp : Evaluation.isSpace x = true := by simpa using hne
  refine notMem_recordFields_of_isSpace h hV1 hV2 hsp (fun hmem => ?_) hr _ hfield hx
  have hno := List.all_eq_true.mp hspace x hmem
  rw [hsp] at hno
  exact absurd hno (by decide)

omit [One W] h hV1 hV2 in
theorem lt_numArcs_of_record? {e : ℕ} {r : Record} (hr : M.record? args e = some r) :
    e < M.fst.numArcs := by
  obtain ⟨p, hp, -⟩ := Option.bind_eq_some_iff.mp hr
  exact VectorFst.lt_numArcs_of_arc? hp

/-- Without commas the map has the record of every arc. -/
theorem exists_arcMapper (hcomma : ∀ e r, M.record? args e = some r → ',' ∉ recordText r) :
    ∃ text arcMapper, arcToActionText args M = some text ∧ readArcMapper text = some arcMapper ∧
      ∀ e < M.fst.numArcs, arcMapper e = (M.record? args e).map recordText := by
  obtain ⟨r, hr, htext, hfile⟩ :=
    exists_arcLines h (hV1.notMem (by decide)) (hV2.notMem (by decide))
  obtain ⟨arcMapper, hloop, hentry⟩ := arcMapperLoop_range r M.fst.numArcs
  refine ⟨_, arcMapper, htext, by rw [readArcMapper, hfile, hloop], fun e he => ?_⟩
  rw [hentry e, if_pos he, List.splitOn_eq_singleton (hcomma e _ (hr e he)),
    List.head?_singleton, hr e he, Option.map_some]

/-- The file is read back if and only if its records are clean. -/
theorem roundTrips_iff_records :
    RoundTrips args M ↔ ∀ e r, M.record? args e = some r → Clean r := by
  have htab {e : ℕ} {r : Record} (hr : M.record? args e = some r) :
      ∀ f ∈ recordFields r, '\t' ∉ f :=
    notMem_recordFields_of_isSpace h hV1 hV2 (by decide) (by decide) hr
  obtain ⟨r, hr, htext, hfile⟩ :=
    exists_arcLines h (hV1.notMem (by decide)) (hV2.notMem (by decide))
  have hline {e : ℕ} (he : e < M.fst.numArcs) :
      (fileLines (terminated '\n' (arcLines r M.fst.numArcs)))[e]? =
      some (lineText (toString e, r e)) := by rw [hfile, getElem?_arcLines he]
  constructor
  · rintro ⟨text, arcMapper, hwritten, -, hall⟩ e r' hr'
    have he := lt_numArcs_of_record? hr'
    obtain rfl := Option.some.inj (htext.symm.trans hwritten)
    obtain rfl := Option.some.inj ((hr e he).symm.trans hr')
    obtain ⟨line, hget, hreads, -⟩ := hall e (r e) hr'
    obtain rfl := Option.some.inj ((hline he).symm.trans hget)
    exact (featurizeReads_iff (htab hr')).mp hreads
  · intro hclean
    obtain ⟨text, arcMapper, hwritten, hread, hmapper⟩ :=
      exists_arcMapper h hV1 hV2 fun e r hr => (hclean e r hr).1
    obtain rfl := Option.some.inj (htext.symm.trans hwritten)
    refine ⟨_, arcMapper, htext, hread, fun e r' hr' => ?_⟩
    have he := lt_numArcs_of_record? hr'
    obtain rfl := Option.some.inj ((hr e he).symm.trans hr')
    have hentry : arcMapper e =
        some (recordText (r e)) := by rw [hmapper e he, hr', Option.map_some]
    exact ⟨_, hline he, (featurizeReads_iff (htab hr')).mpr (hclean e _ hr'),
      sandboxReads_of_entry (htab hr') (trim_olabel h hV1 hV2 hr') hentry⟩

end Records

/-! ### Which alphabets have such records -/

/-- Boundary symbols on the left, `u` next to be consumed, and any lower window. -/
def lineContext (sz : Sizes) (u : Sym) (llc : List Sym) : Context :=
  ⟨List.replicate sz.ulcMax stopStartChar, u :: List.replicate (sz.urcMax - 1) stopStartChar, llc⟩

section Contexts
variable {args : Args} {u : Sym} {llc : List Sym}

theorem lineContext_isKey (hurc : 1 ≤ args.sizes.urcMax) (hu : u ∈ args.V1 ∨ u = stopStartChar)
    (hlength : llc.length = args.sizes.llcMax) (hllc : ∀ s ∈ llc, s ∈ args.V2 ∨ s = stopStartChar) :
    IsKey args (lineContext args.sizes u llc) ∧
      isBold args.sizes (lineContext args.sizes u llc) := by
  refine ⟨⟨⟨?_, ?_, ?_, ?_⟩, ?_, ?_, ?_, ?_, ?_, ?_⟩, ?_⟩
  · rw [sharpAtBeginning_iff]
    simp [lineContext, List.pairwise_replicate]
  · rw [sharpAtEnd_iff]
    simp [lineContext, List.pairwise_replicate]
  · simp [lineContext]
  · intro hnil
    have hllc : llc = [] := hnil
    rw [← hlength, hllc, List.length_nil]
  · simp [lineContext]
  · simp only [lineContext, List.length_cons, List.length_replicate]
    omega
  · exact hlength.le
  · simp +contextual [lineContext]
  · simp +contextual [lineContext, hu]
  · exact hllc
  · rw [isBold_iff]
    simp only [lineContext, List.length_cons, List.length_replicate, hlength, and_true, true_and]
    omega

end Contexts

/-- A character is in no symbol if the symbol that it makes up is missing. -/
theorem CharSymbols.notMem_of_symbol {ok : Char → Prop} {V : List Sym} (h : CharSymbols ok V)
    {s : Sym} {x : Char} (hs : s.toList = [x]) (hno : s ∉ V) : ∀ v ∈ V, x ∉ v.toList := by
  intro v hv hmem
  obtain ⟨c, hc, -⟩ := h.single v hv
  rw [hc, List.mem_singleton] at hmem
  have hsame : v = s := String.toList_inj.mp (by rw [hc, hs, hmem])
  exact hno (hsame ▸ hv)

theorem urc_mem_contextParts (c : Context) : chars c.urc ∈ contextParts
    (some c) := by simp [contextParts]

theorem llc_mem_contextParts (c : Context) : chars c.llc ∈ contextParts
    (some c) := by simp [contextParts]

theorem mem_recordText_of_urc {r : Record} {c : Context} (hc : r.source = some c) {x : Char}
    (hx : x ∈ chars c.urc) (hhyphen : x ≠ '-') (htab : x ≠ '\t') : x ∈ recordText r := by
  have hcontext : x ∈ contextText r.source := by
    rw [contextText, mem_intercalate_iff hhyphen, hc]
    exact ⟨chars c.urc, urc_mem_contextParts c, hx⟩
  rw [recordText, mem_intercalate_iff htab]
  exact ⟨contextText r.source, by simp [recordFields], hcontext⟩

theorem mem_recordText_of_olabel {r : Record} {x : Char} (hx : x ∈ r.olabel.toList)
    (htab : x ≠ '\t') : x ∈ recordText r := by
  rw [recordText, mem_intercalate_iff htab]
  exact ⟨r.olabel.toList, by simp [recordFields], hx⟩

section Alphabets
variable {W : Type*} [One W] {ord : HashOrder} {args : Args} {M : Machine W} {ok : Char → Prop}
  (h : contextualEdit W ord args = some M) (hV1 : CharSymbols ok args.V1)
  (hV2 : CharSymbols ok args.V2)

include h hV1 hV2

theorem clean_of_alphabets (hcomma1 : "," ∉ args.V1) (hcomma2 : "," ∉ args.V2)
    (hhyphen1 : "-" ∉ args.V1) (hhyphen2 : args.sizes.llcMax = 0 ∨ "-" ∉ args.V2) {e : ℕ}
    {r : Record} (hr : M.record? args e = some r) : Clean r := by
  have hV : args.Unreserved := ⟨hV1.unreserved, hV2.unreserved⟩
  have hc1 := hV1.notMem_of_symbol (x := ',') rfl hcomma1
  have hc2 := hV2.notMem_of_symbol (x := ',') rfl hcomma2
  have hh1 := hV1.notMem_of_symbol (x := '-') rfl hhyphen1
  constructor
  · rw [recordText, mem_intercalate_iff (by decide)]
    rintro ⟨f, hf, hmem⟩
    exact notMem_recordFields hc1 h hc2 (by decide) hr f hf hmem
  · obtain ⟨c, m, t, hc, -, -, rfl⟩ := exists_move_of_record? h hV hr
    exact notMem_contextParts hh1 hc (by decide) (hhyphen2.imp id fun hno =>
      hV2.notMem_of_symbol (x := '-') rfl hno)

/-- Every symbol stands in a line: an upper one where it is deleted, a lower one where it
is inserted or in the lower window. -/
theorem clean_iff (hurc : 1 ≤ args.sizes.urcMax) : (∀ e r, M.record? args e = some r → Clean r) ↔
    "," ∉ args.V1 ∧ "," ∉ args.V2 ∧ "-" ∉ args.V1 ∧ (args.sizes.llcMax = 0 ∨ "-" ∉ args.V2) := by
  have hV : args.Unreserved := ⟨hV1.unreserved, hV2.unreserved⟩
  refine ⟨fun hclean => ?_, fun ⟨hc1, hc2, hh1, hh2⟩ e r hr =>
    clean_of_alphabets h hV1 hV2 hc1 hc2 hh1 hh2 hr⟩
  have hmove {c : Context} {m : Move} {t : Option Context} (hc : IsKey args c)
    (hm : (m, t) ∈ moves args c) :
      Clean ⟨some c, t, m.isym, m.osym, m.action⟩ := by
    obtain ⟨e, -, hrec⟩ := exists_record?_of_move h hV hc hm
    exact hclean e _ hrec
  have hpadded : ∀ s ∈ List.replicate args.sizes.llcMax stopStartChar, s ∈ args.V2 ∨
      s = stopStartChar :=
    fun s hs => .inr (List.eq_of_mem_replicate hs)
  have hdel {u : Sym} (hu : u ∈ args.V1) := by
    have hs : u ≠ stopStartChar := fun hs => hV.upper.sharp (hs ▸ hu)
    obtain ⟨hkey, hbold⟩ := lineContext_isKey hurc (.inl hu) List.length_replicate hpadded
    exact hmove hkey (mem_moves_del.mpr ⟨hbold, u, _, rfl, hs, rfl⟩)
  refine ⟨fun hu => ?_, fun hv => ?_, fun hu => ?_, ?_⟩
  · refine (hdel hu).1
      (mem_recordText_of_urc rfl (mem_chars.mpr ⟨",", ?_, ?_⟩) (by decide) (by decide))
    · exact List.mem_cons_self
    · decide
  · obtain ⟨hkey, hbold⟩ := lineContext_isKey hurc (.inr rfl) List.length_replicate hpadded
    refine (hmove hkey (mem_moves_ins.mpr ⟨hbold, hv, rfl⟩)).1
      (mem_recordText_of_olabel ?_ (by decide))
    show ',' ∈ ",".toList
    decide
  · refine (hdel hu).2 _ (urc_mem_contextParts _) (mem_chars.mpr ⟨"-", List.mem_cons_self, ?_⟩)
    decide
  · by_contra hboth
    rw [not_or, not_not] at hboth
    obtain ⟨hllc, hv⟩ := hboth
    have hlength : ("-" :: List.replicate (args.sizes.llcMax - 1) stopStartChar).length =
        args.sizes.llcMax := by
      rw [List.length_cons, List.length_replicate]
      omega
    obtain ⟨hkey, hbold⟩ := lineContext_isKey hurc (.inr rfl) hlength fun s hs => by
      rcases List.mem_cons.mp hs with rfl | hs
      · exact .inl hv
      · exact .inr (List.eq_of_mem_replicate hs)
    have hfinal := mem_moves_final.mpr ⟨rfl, (isBold_iff.mp hbold).2.1, fun s hs => by
      rcases List.mem_cons.mp hs with rfl | hs
      · rfl
      · exact List.eq_of_mem_replicate hs⟩
    refine (hmove hkey hfinal).2 _ (llc_mem_contextParts _)
      (mem_chars.mpr ⟨"-", List.mem_cons_self, ?_⟩)
    decide

end Alphabets

/-- The lines are read back if and only if the comma is no symbol, the hyphen is no upper
symbol, and it is no lower symbol unless there is no lower window. -/
theorem roundTrips_iff {W : Type*} [One W] {ord : HashOrder} {args : Args} {M : Machine W}
    (h : contextualEdit W ord args = some M) (hurc : 1 ≤ args.sizes.urcMax)
    (hV1 : CharAlphabet (Evaluation.isSpace · = false) args.V1)
    (hV2 : CharAlphabet (Evaluation.isSpace · = false) args.V2) : RoundTrips args M ↔
      "," ∉ args.V1 ∧ "," ∉ args.V2 ∧ "-" ∉ args.V1 ∧ (args.sizes.llcMax = 0 ∨ "-" ∉ args.V2) :=
  (roundTrips_iff_records h hV1.toCharSymbols hV2.toCharSymbols).trans
    (clean_iff h hV1.toCharSymbols hV2.toCharSymbols hurc)

theorem roundTrips_one_one_one : ∃ M, contextualEdit ℚ insertionOrder
    (smallArgs ⟨1, 1, 1⟩) = some M ∧
    RoundTrips (smallArgs ⟨1, 1, 1⟩) M := by
  obtain ⟨M, hM⟩ := exists_contextualEdit ℚ insertionOrder
    (show Completes (smallArgs ⟨1, 1, 1⟩) from .inl le_rfl)
  refine ⟨M, hM,
    (roundTrips_iff hM le_rfl (charAlphabet_a (by decide)) (charAlphabet_b (by decide))).mpr ?_⟩
  exact ⟨by decide, by decide, by decide, .inr (by decide)⟩

/-- Both windows have one symbol, and a comma can be written. -/
def commaArgs : Args := ⟨⟨1, 1, 1⟩, ["a"], [","], epsilonTable⟩

theorem charAlphabet_comma : CharAlphabet (Evaluation.isSpace · = false) commaArgs.V2 :=
  ⟨⟨by decide, fun _ hv => ⟨',', List.mem_singleton.mp hv ▸ rfl, by decide⟩⟩, by decide⟩

theorem not_roundTrips : ¬ ∀ (ord : HashOrder) (args : Args) (M : Machine ℚ),
    contextualEdit ℚ ord args = some M → 1 ≤ args.sizes.urcMax →
    CharAlphabet (Evaluation.isSpace · = false) args.V1 →
      CharAlphabet (Evaluation.isSpace · = false) args.V2 →
    RoundTrips args M := by
  intro hclaim
  obtain ⟨M, hM⟩ := exists_contextualEdit ℚ insertionOrder
    (show Completes commaArgs from .inl le_rfl)
  have hV1 : CharAlphabet (Evaluation.isSpace · = false) commaArgs.V1 := charAlphabet_a (by decide)
  have hall := (roundTrips_iff_records hM hV1.toCharSymbols charAlphabet_comma.toCharSymbols).mp
    (hclaim insertionOrder commaArgs M hM le_rfl hV1 charAlphabet_comma)
  have hno := ((clean_iff hM hV1.toCharSymbols charAlphabet_comma.toCharSymbols le_rfl).mp hall).2.1
  exact hno (List.mem_singleton_self ",")

end StochasticEdit.Features
