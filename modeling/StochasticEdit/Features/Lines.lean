import StochasticEdit.Generator.Records
import StochasticEdit.Text.Separated

/-! The text of `arc_to_action` (end of `main` of `context_edit.py`) and the pieces that
`featurize.py` takes from its lines. A line nests three separators: a comma after the arc
id, tabs between the fields and hyphens between the windows of a context. None of them is
escaped. -/

namespace StochasticEdit.Features

open Wfst Generator Text

/-- A Python string, by its characters. -/
abbrev Str := List Char

/-! ### What is written -/

/-- `str`. -/
def str (n : ℕ) : Str := (toString n).toList

/-- `"".join(x)` of a window. -/
def chars (window : List Sym) : Str := window.flatMap String.toList

/-- The parts of the text of a context. State 0 has the string `-#-`, whose characters are
joined like windows. -/
def contextParts : Option Context → List Str
  | none => [['-'], ['#'], ['-']]
  | some c => [chars c.ulc, chars c.urc, chars c.llc]

def contextText (c : Option Context) : Str := ['-'].intercalate (contextParts c)

def actionText : Action → Str
  | .FINAL => "FINAL".toList
  | .INS => "INS".toList
  | .SUB => "SUB".toList
  | .DEL => "DEL".toList
  | .ABS => "ABS".toList

/-- The fields behind the arc id. -/
def recordFields (r : Record) : List Str :=
  [contextText r.source, contextText r.target, r.ilabel.toList, r.olabel.toList,
    actionText r.action]

def recordText (r : Record) : Str := ['\t'].intercalate (recordFields r)

/-- `tmp`. -/
def lineText (line : String × Record) : Str := line.1.toList ++ ',' :: recordText line.2

/-- The lines for the first `n` arcs. -/
def arcLines (r : ℕ → Record) (n : ℕ) : List Str :=
  (List.range n).map fun e => lineText (toString e, r e)

/-- The content of the file. -/
def arcToActionText {W : Type*} (args : Args) (M : Machine W) : Option Str :=
  (arcToAction args M).map fun lines => terminated '\n' (lines.map lineText)

/-! ### What is read -/

/-- The lines over which a program iterates, without their ends. -/
def fileLines (text : Str) : List Str := terminatedParts '\n' text

/-- `arc_id,rest = line.split(",")`, which raises `ValueError` unless there are two parts. -/
def arcIdAndRest (line : Str) : Option (Str × Str) :=
  match line.splitOn ',' with
  | [arcId, rest] => some (arcId, rest)
  | _ => none

/-- `rest.split("\t")[0].split("-")`. -/
def contexts (rest : Str) : List Str := ((rest.splitOn '\t').headD []).splitOn '-'

/-- `rest.split("\t")[-2]`. -/
def outputSymbol (rest : Str) : Option Str := (rest.splitOn '\t').dropLast.getLast?

/-- `rest.split("\t")[-1]`. -/
def action (rest : Str) : Option Str := (rest.splitOn '\t').getLast?

/-! ### The lines of the file -/

theorem chars_nil : chars [] = [] := rfl

theorem chars_cons (s : Sym) (w : List Sym) : chars (s :: w) = s.toList ++ chars w :=
  List.flatMap_cons

theorem chars_append (w w' : List Sym) : chars (w ++ w') = chars w ++ chars w' :=
  List.flatMap_append

theorem chars_singleton (s : Sym) : chars [s] = s.toList := List.flatMap_singleton _ s

theorem notMem_str {c : Char} (hc : c.isDigit = false) (n : ℕ) : c ∉ str n := by
  intro h
  have hdigits : c ∈ (Nat.repr n).toList := h
  rw [Nat.toList_repr] at hdigits
  rw [Nat.isDigit_of_mem_toDigits (by decide) (by decide) hdigits] at hc
  exact absurd hc (by decide)

section File
variable {r : ℕ → Record} {n : ℕ}

theorem arcToActionText_eq {W : Type*} {args : Args} {M : Machine W}
    (h : arcToAction args M = some ((List.range n).map fun e => (toString e, r e))) :
    arcToActionText args M = some (terminated '\n' (arcLines r n)) := by
  rw [arcToActionText, h, Option.map_some, List.map_map]
  rfl

theorem getElem?_arcLines {e : ℕ} (he : e < n) :
    (arcLines r n)[e]? = some (lineText (toString e, r e)) := by
  rw [arcLines, List.getElem?_map, List.getElem?_range he]
  rfl

/-- A program that reads the file gets the lines. -/
theorem fileLines_arcLines (h : ∀ e < n, '\n' ∉ recordText (r e)) :
    fileLines (terminated '\n' (arcLines r n)) = arcLines r n := by
  refine terminatedParts_terminated fun p hp => ?_
  obtain ⟨e, he, rfl⟩ := List.mem_map.mp hp
  have hid : '\n' ∉ (toString e).toList := notMem_str (by decide) e
  rw [lineText, List.mem_append, List.mem_cons]
  rintro (hmem | hmem | hmem)
  · exact hid hmem
  · exact absurd hmem (by decide)
  · exact h e (List.mem_range.mp he) hmem

end File

/-! ### Separators in a record -/

theorem actionText_inj {a b : Action} (h : actionText a = actionText b) : a = b := by
  cases a <;> cases b <;> first | rfl | exact absurd h (by decide)

section Reading
variable {id rest : Str} {r : Record}

theorem arcIdAndRest_iff {line : Str} :
    arcIdAndRest line = some (id, rest) ↔ line.splitOn ',' = [id, rest] := by
  unfold arcIdAndRest
  split
  next a b h => rw [h, Option.some.injEq, Prod.mk.injEq, List.cons.injEq, List.cons.injEq]; simp
  next h => exact iff_of_false (by simp) fun hline => h _ _ hline

/-- The first split finds the id if and only if the record has no comma. -/
theorem arcIdAndRest_eq_iff (hid : ',' ∉ id) :
    arcIdAndRest (id ++ ',' :: recordText r) = some (id, recordText r) ↔ ',' ∉ recordText r := by
  have hjoin : id ++ ',' :: recordText r = [','].intercalate [id, recordText r] := by
    rw [List.intercalate_cons_cons, List.intercalate_singleton, List.append_assoc]
    rfl
  rw [arcIdAndRest_iff, hjoin, splitOn_intercalate_iff (List.cons_ne_nil _ _)]
  simp [hid]

/-- The fields are found again if and only if none of them has a tab. -/
theorem splitOn_recordText_iff :
    (recordText r).splitOn '\t' = recordFields r ↔ ∀ f ∈ recordFields r, '\t' ∉ f :=
  splitOn_intercalate_iff (List.cons_ne_nil _ _)

variable (h : (recordText r).splitOn '\t' = recordFields r)

include h

theorem outputSymbol_eq : outputSymbol (recordText r) = some r.olabel.toList := by
  rw [outputSymbol, h]
  rfl

theorem action_eq : action (recordText r) = some (actionText r.action) := by
  rw [action, h]
  rfl

theorem contexts_eq_iff :
    contexts (recordText r) = contextParts r.source ↔ ∀ w ∈ contextParts r.source, '-' ∉ w := by
  have hhead : contexts (recordText r) = (contextText r.source).splitOn '-' := by
    rw [contexts, h]
    rfl
  rw [hhead, contextText, splitOn_intercalate_iff]
  cases r.source <;> exact List.cons_ne_nil _ _

end Reading

/-! ### Windows of single characters -/

section Windows
variable {v w : List Sym}

theorem chars_eq_map (hw : ∀ s ∈ w, ∃ x, s.toList = [x]) :
    chars w = w.map fun s => s.toList.headD '#' := by
  rw [chars, List.map_eq_flatMap]
  refine List.flatMap_congr fun s hs => ?_
  obtain ⟨x, hx⟩ := hw s hs
  rw [hx]
  rfl

theorem chars_inj (hv : ∀ s ∈ v, ∃ x, s.toList = [x]) (hw : ∀ s ∈ w, ∃ x, s.toList = [x])
    (h : chars v = chars w) : v = w := by
  induction v generalizing w with
  | nil =>
    cases w with
    | nil => rfl
    | cons s w =>
      rw [chars_eq_map hw] at h
      exact absurd h (List.cons_ne_nil _ _).symm
  | cons s v ih =>
    cases w with
    | nil =>
      rw [chars_eq_map hv] at h
      exact absurd h (List.cons_ne_nil _ _)
    | cons s' w =>
      obtain ⟨x, hx⟩ := hv s (by simp)
      obtain ⟨y, hy⟩ := hw s' (by simp)
      rw [chars_cons, chars_cons, hx, hy] at h
      obtain ⟨rfl, hrest⟩ := List.cons.inj h
      rw [String.toList_injective (hx.trans hy.symm), ih (fun s hs => hv s (by simp [hs]))
        (fun s hs => hw s (by simp [hs])) hrest]

end Windows

/-! ### Alphabets of characters -/

/-- Single characters that satisfy `ok`, without the boundary symbol. -/
structure CharSymbols (ok : Char → Prop) (V : List Sym) : Prop where
  sharp : stopStartChar ∉ V
  single : ∀ v ∈ V, ∃ c, v.toList = [c] ∧ ok c

/-- An alphabet of such characters. -/
structure CharAlphabet (ok : Char → Prop) (V : List Sym) : Prop extends CharSymbols ok V where
  nodup : V.Nodup

section Symbols
variable {ok : Char → Prop} {V : List Sym} {new : NewTable}

theorem CharSymbols.exists_char (hV : CharSymbols ok V) {s : Sym} (hs : s ∈ V ∨ s = stopStartChar) :
    ∃ x, s.toList = [x] := by
  rcases hs with hs | rfl
  · obtain ⟨x, hx, -⟩ := hV.single s hs
    exact ⟨x, hx⟩
  · exact ⟨'#', rfl⟩

theorem CharSymbols.length_eq_one (h : CharSymbols ok V) {v : Sym} (hv : v ∈ V) :
    v.toList.length = 1 := by
  obtain ⟨c, hc, -⟩ := h.single v hv
  rw [hc, List.length_singleton]

theorem CharSymbols.notMem (h : CharSymbols ok V) {x : Char} (hx : ¬ ok x) :
    ∀ v ∈ V, x ∉ v.toList := by
  intro v hv hmem
  obtain ⟨c, hc, hok⟩ := h.single v hv
  rw [hc, List.mem_singleton] at hmem
  exact hx (hmem ▸ hok)

theorem CharSymbols.eps (h : CharSymbols ok V) : epsilon ∉ V := fun heps =>
  absurd (h.length_eq_one heps) (by decide)

/-- The names of a new table are longer. -/
theorem CharSymbols.notMem_names (h : CharSymbols ok V) : ∀ v ∈ V, v ∉ new.names := fun v hv hmem =>
  new.long v hmem (h.length_eq_one hv)

theorem CharSymbols.unreserved (h : CharSymbols ok V) : Unreserved new V := by
  refine ⟨h.sharp, fun v hv hmem => ?_⟩
  rcases List.mem_cons.mp hmem with rfl | hmem
  · exact h.eps hv
  · exact h.notMem_names v hv hmem

theorem CharAlphabet.alphabet (h : CharAlphabet ok V) : Alphabet V := ⟨h.nodup, h.sharp, h.eps⟩

theorem valid_of_charAlphabet {ok' : Char → Prop} {args : Args} (hV1 : CharAlphabet ok args.V1)
    (hV2 : CharAlphabet ok' args.V2) : args.Valid :=
  ⟨⟨hV1.alphabet, hV2.alphabet⟩, hV1.notMem_names, hV2.notMem_names⟩

end Symbols

/-- The characters of the format. -/
def formatChars : Str := "#-<EPS>FINALINSSUBDELABS".toList

theorem actionText_subset (a : Action) : actionText a ⊆ formatChars := by
  cases a <;> decide

section Absent
variable {args : Args} {c : Context} {x : Char} (h1 : ∀ v ∈ args.V1, x ∉ v.toList)

theorem mem_chars {w : List Sym} : x ∈ chars w ↔ ∃ s ∈ w, x ∈ s.toList := List.mem_flatMap

include h1

/-- A character of no symbol is not in the windows. -/
theorem notMem_contextParts (hc : IsKey args c) (hx : x ≠ '#')
    (h2 : args.sizes.llcMax = 0 ∨ ∀ v ∈ args.V2, x ∉ v.toList) :
    ∀ w ∈ contextParts (some c), x ∉ w := by
  have hsharp : x ∉ stopStartChar.toList := fun h => hx (List.mem_singleton.mp h)
  have hwindow {V : List Sym} {w : List Sym} (hV : ∀ v ∈ V, x ∉ v.toList)
      (hw : ∀ s ∈ w, s ∈ V ∨ s = stopStartChar) : x ∉ chars w := by
    rw [mem_chars]
    rintro ⟨s, hs, hmem⟩
    rcases hw s hs with hs | rfl
    · exact hV s hs hmem
    · exact hsharp hmem
  intro w hw
  simp only [contextParts, List.mem_cons, List.not_mem_nil, or_false] at hw
  rcases hw with rfl | rfl | rfl
  · exact hwindow h1 hc.ulc_mem
  · exact hwindow h1 hc.urc_mem
  · rcases h2 with h0 | h2
    · have hnil : c.llc = [] := List.length_eq_zero_iff.mp (Nat.le_zero.mp (h0 ▸ hc.llc_length))
      rw [hnil]
      exact List.not_mem_nil
    · exact hwindow h2 hc.llc_mem

/-- Nor is it in the fields of a record, unless the format itself uses it. -/
theorem notMem_recordFields {W : Type*} [One W] {ord : HashOrder} {M : Machine W}
    (h : contextualEdit W ord args = some M) (h2 : ∀ v ∈ args.V2, x ∉ v.toList)
    (hx : x ∉ formatChars) {e : ℕ} {r : Record} (hr : M.record? args e = some r) :
    ∀ f ∈ recordFields r, x ∉ f := by
  obtain ⟨⟨c, hc, hsource⟩, htarget, hilabel, holabel⟩ := exists_fields_of_record? h hr
  have hne (y : Char) (hy : y ∈ formatChars) : x ≠ y := fun h => hx (h ▸ hy)
  have hcontext {d : Option Context} (hd : ∀ k ∈ d, IsKey args k) : x ∉ contextText d := by
    rw [contextText, mem_intercalate_iff (hne '-' (by decide))]
    rintro ⟨w, hw, hmem⟩
    cases d with
    | none =>
      revert hmem
      simp only [contextParts, List.mem_cons, List.not_mem_nil, or_false] at hw
      have hhyphen := hne '-' (by decide)
      have hsharp := hne '#' (by decide)
      rcases hw with rfl | rfl | rfl <;> simp [hhyphen, hsharp]
    | some k =>
      exact notMem_contextParts h1 (hd k rfl) (hne '#' (by decide)) (.inr h2) w hw hmem
  have hsub : epsilon.toList ⊆ formatChars := by decide
  have heps : x ∉ epsilon.toList := fun h => hx (hsub h)
  have hlabel {V : List Sym} {s : Sym} (hV : ∀ v ∈ V, x ∉ v.toList)
      (hs : s = epsilon ∨ s ∈ V ∨ s = stopStartChar) : x ∉ s.toList := by
    rcases hs with rfl | hs | rfl
    · exact heps
    · exact hV s hs
    · exact fun h => hne '#' (by decide) (List.mem_singleton.mp h)
  intro f hf
  simp only [recordFields, List.mem_cons, List.not_mem_nil, or_false] at hf
  rcases hf with rfl | rfl | rfl | rfl | rfl
  · exact hcontext fun k hk => Option.some.inj (hsource.symm.trans hk) ▸ hc
  · exact hcontext htarget
  · exact hlabel h1 hilabel
  · exact hlabel h2 holabel
  · exact fun h => hx (actionText_subset _ h)

end Absent

/-- The lines of the written file are those of the arcs, where symbols are lines of the
symbol files. -/
theorem exists_arcLines {W : Type*} [One W] {ord : HashOrder} {args : Args} {M : Machine W}
    (h : contextualEdit W ord args = some M) (h1 : ∀ v ∈ args.V1, '\n' ∉ v.toList)
    (h2 : ∀ v ∈ args.V2, '\n' ∉ v.toList) :
    ∃ r : ℕ → Record, (∀ e < M.fst.numArcs, M.record? args e = some (r e)) ∧
      arcToActionText args M = some (terminated '\n' (arcLines r M.fst.numArcs)) ∧
      fileLines (terminated '\n' (arcLines r M.fst.numArcs)) = arcLines r M.fst.numArcs := by
  obtain ⟨r, hr, hlines⟩ := exists_arcToAction h
  refine ⟨r, hr, arcToActionText_eq hlines, fileLines_arcLines fun e he => ?_⟩
  rw [recordText, mem_intercalate_iff (by decide)]
  rintro ⟨f, hf, hmem⟩
  exact notMem_recordFields h1 h h2 (by decide) (hr e he) f hf hmem

end StochasticEdit.Features
