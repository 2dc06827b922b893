import StochasticEdit.Generator.Windows
import StochasticEdit.Wfst.Vector
import Mathlib.Data.List.Dedup

/-! The construction of the contextual edit transducer (`main` of
`context_edit.py`). The iteration order of Python sets and dictionaries is a
parameter. A lookup of a missing key raises `KeyError` and ends the program, which
is `none` here; the calls of `add_arc` are listed in the order in which the
program makes them. -/

namespace StochasticEdit.Generator

open Wfst

/-- The order in which a hash container with the given content is iterated. -/
structure HashOrder where
  iter : {α : Type} → List α → List α
  perm : ∀ {α : Type} (l : List α), (iter l).Perm l

/-! ### Symbol tables -/

def epsilon : Sym := "<EPS>"

/-- What `pyfst.SymbolTable()` returns: a table that has some names for the empty word
already, with the id 0. No such name is a single byte. -/
structure NewTable where
  names : List Sym
  long : ∀ s ∈ names, s.toList.length ≠ 1
  eps : epsilon ∉ names

/-- `syms[symbol] = key`: a symbol that is in the table keeps its id. The latest entry of
a table comes first. -/
def addSymbol (table : List (Sym × ℤ)) (symbol : Sym) (key : ℤ) : List (Sym × ℤ) :=
  if symbol ∈ table.map Prod.fst then table else (symbol, key) :: table

/-- Epsilon is 0, the boundary symbol is 1, and the alphabet follows. -/
def symbolTable (new : NewTable) (V : List Sym) : List (Sym × ℤ) :=
  V.zipIdx.foldl (fun table p => addSymbol table p.1 ((p.2 : ℤ) + 2))
    (addSymbol (addSymbol (new.names.map fun s => (s, 0)) epsilon 0) stopStartChar 1)

def symbolId (table : List (Sym × ℤ)) (s : Sym) : Option ℤ := table.lookup s

/-- `find`: the symbol that was added last with a given id. -/
def findSymbol (table : List (Sym × ℤ)) (i : ℤ) : Option Sym :=
  (table.find? fun p => p.2 = i).map Prod.fst

/-- The sizes and the two alphabets the program is run with, and the symbol table that it
starts from. -/
structure Args where
  sizes : Sizes
  V1 : List Sym
  V2 : List Sym
  newTable : NewTable

/-- `syms_in`. -/
def Args.symsIn (args : Args) : List (Sym × ℤ) := symbolTable args.newTable args.V1

/-- `syms_out`. -/
def Args.symsOut (args : Args) : List (Sym × ℤ) := symbolTable args.newTable args.V2

/-! ### States -/

/-- `itertools.product(s, repeat=n)`. -/
def product (s : List Sym) : ℕ → List (List Sym)
  | 0 => [[]]
  | n + 1 => s.flatMap fun a => (product s n).map (a :: ·)

/-- The innermost body of the enumeration: `none` where a filter skips the key. -/
def keepKey (sz : Sizes) (ulc llc urc : List Sym) : Option Context :=
  if !sharpAtBeginning ulc then none
  else if !sharpAtEnd urc then none
  else if ulc.length = 0 ∧ sz.ulcMax > 0 then none
  else if llc.length = 0 ∧ sz.llcMax > 0 then none
  else if sz.ulcMax > 0 ∧ sz.llcMax > 0 ∧ ulc.length = 0 ∧ llc.length = 0 ∧ urc.length = 0 then none
  else some ⟨ulc, urc, llc⟩

/-- The keys in the order in which they get their state numbers 1, 2, 3, ... -/
def keys (ord : HashOrder) (args : Args) : List Context :=
  let sz := args.sizes
  let upper := ord.iter (args.V1 ++ [stopStartChar]).dedup
  let lower := ord.iter (args.V2 ++ [stopStartChar]).dedup
  (List.range (sz.ulcMax + 1)).flatMap fun i =>
    (List.range (sz.llcMax + 1)).flatMap fun j =>
      (List.range (sz.urcMax + 1)).flatMap fun k =>
        (product upper (sz.ulcMax - i)).flatMap fun ulc =>
          (product lower (sz.llcMax - j)).flatMap fun llc =>
            (product upper (sz.urcMax - k)).filterMap fun urc => keepKey sz ulc llc urc

/-- `all_lookup`. -/
def allLookup (ks : List Context) : List (Context × ℕ) := ks.zipIdx 1

/-- All three windows have their maximal length. -/
def isBold (sz : Sizes) (c : Context) : Bool :=
  c.ulc.length = sz.ulcMax && c.urc.length = sz.urcMax && c.llc.length = sz.llcMax

/-- The iteration over `bold_lookup`. -/
def boldKeys (ord : HashOrder) (sz : Sizes) (ks : List Context) : List Context :=
  ord.iter (ks.filter fun c => isBold sz c)

/-- The iteration over `non_bold_lookup`. -/
def nonBoldKeys (ord : HashOrder) (sz : Sizes) (ks : List Context) : List Context :=
  ord.iter (ks.filter fun c => !isBold sz c)

/-- The key of the start state, by its four cases. -/
def startKey (sz : Sizes) : Context :=
  if sz.ulcMax > 0 then
    if sz.llcMax > 0 then ⟨[stopStartChar], [], [stopStartChar]⟩ else ⟨[stopStartChar], [], []⟩
  else
    if sz.llcMax > 0 then ⟨[], [], [stopStartChar]⟩ else ⟨[], [], []⟩

/-! ### Arcs -/

inductive Action
  | FINAL | INS | SUB | DEL | ABS
  deriving DecidableEq, Repr

/-- A call of `add_arc` with the entry that it gets in `arc_map`. -/
structure ArcCall where
  src : ℕ
  dst : ℕ
  ilabel : ℤ
  olabel : ℤ
  action : Action
  deriving DecidableEq, Repr

def ArcCall.key (c : ArcCall) : ℕ × ℕ × ℤ × ℤ := (c.src, c.dst, c.ilabel, c.olabel)

/-- A `for` loop that collects calls and ends at the first exception. -/
def forEach {α β : Type*} (f : α → Option (List β)) : List α → Option (List β)
  | [] => some []
  | a :: l => do
    let bs ← f a
    let cs ← forEach f l
    return bs ++ cs

/-- The FINAL arcs, added during the enumeration. -/
def finalCalls (sz : Sizes) (lookup : List (Context × ℕ)) : List ArcCall :=
  lookup.filterMap fun p =>
    if p.1.urc.length = sz.urcMax ∧ allStopStart p.1.urc then some ⟨p.2, 0, 0, 0, .FINAL⟩ else none

section Branches
variable (args : Args) (lookup : List (Context × ℕ)) (state : Context)

def insCalls : Option (List ArcCall) :=
  forEach (fun v2 => do
    let src ← lookup.lookup state
    let dst ← lookup.lookup (insKey args.sizes state v2)
    let olabel ← symbolId args.symsOut v2
    return [⟨src, dst, 0, olabel, .INS⟩]) args.V2

def subCalls : Option (List ArcCall) :=
  forEach (fun v2 =>
    match state.urc with
    | [] => some []
    | u :: _ =>
      if u = stopStartChar then some []
      else do
        let src ← lookup.lookup state
        let dst ← lookup.lookup (subKey args.sizes state u v2)
        let olabel ← symbolId args.symsOut v2
        return [⟨src, dst, 0, olabel, .SUB⟩]) args.V2

def delCalls : Option (List ArcCall) :=
  match state.urc with
  | [] => some []
  | u :: _ =>
    if u = stopStartChar then some []
    else do
      let src ← lookup.lookup state
      let dst ← lookup.lookup (delKey args.sizes state u)
      return [⟨src, dst, 0, 0, .DEL⟩]

/-- The body of the loop over `bold_lookup`. -/
def boldCalls : Option (List ArcCall) := do
  let ins ← insCalls args lookup state
  let sub ← subCalls args lookup state
  let del ← delCalls args lookup state
  return ins ++ sub ++ del

/-- The loop that sets `go`, with the flag `sharp_seen`. -/
def goLoop : Bool → Bool → List Sym → Bool
  | go, _, [] => go
  | go, sharpSeen, i :: t =>
    if i = stopStartChar then goLoop go true t
    else if sharpSeen then goLoop true sharpSeen t
    else goLoop go sharpSeen t

/-- The body of the loop over `non_bold_lookup`. -/
def absCalls : Option (List ArcCall) :=
  forEach (fun v1 =>
    if v1 = stopStartChar ∧ args.sizes.urcMax = 0 then some []
    else if goLoop false false (absKey args.sizes state v1).urc then some []
    else do
      let src ← lookup.lookup state
      let dst ← lookup.lookup (absKey args.sizes state v1)
      let ilabel ← symbolId args.symsIn v1
      return [⟨src, dst, ilabel, 0, .ABS⟩]) (args.V1 ++ [stopStartChar])

end Branches

/-- The start state and all calls of `add_arc`, in order. -/
def arcCalls (ord : HashOrder) (args : Args) : Option (ℕ × List ArcCall) := do
  let ks := keys ord args
  let lookup := allLookup ks
  let start ← lookup.lookup (startKey args.sizes)
  let bold ← forEach (boldCalls args lookup) (boldKeys ord args.sizes ks)
  let nonBold ← forEach (absCalls args lookup) (nonBoldKeys ord args.sizes ks)
  return (start, finalCalls args.sizes lookup ++ bold ++ nonBold)

/-- The result of the program: the transducer, the dictionary `arc_map` with the
latest assignment first, and the contexts of the states 1, 2, 3, ... -/
structure Machine (W : Type*) where
  fst : VectorFst W
  arcMap : List ((ℕ × ℕ × ℤ × ℤ) × Action)
  stateToContext : List Context

variable {W : Type*} [One W]

def ArcCall.toArc (c : ArcCall) : Arc W := ⟨c.ilabel, c.olabel, 1, c.dst⟩

/-- The states: the constructor makes state 0, which becomes the final state, and
every key adds one. -/
def machineStates (ks : List Context) : VectorFst W :=
  (ks.foldl (fun F _ => F.addState) (VectorFst.empty.addState : VectorFst W)).setFinal 0 1

def contextualEdit (W : Type*) [One W] (ord : HashOrder) (args : Args) : Option (Machine W) :=
  (arcCalls ord args).map fun (start, calls) =>
    let ks := keys ord args
    { fst := calls.foldl (fun F c => F.addArc c.src c.toArc) ((machineStates ks).setStart start)
      arcMap := calls.foldl (fun d c => (c.key, c.action) :: d) []
      stateToContext := ks }

/-- Every key the program looks up: that of the start state and those of the arcs. -/
def computedKeys (ord : HashOrder) (args : Args) : List Context :=
  let sz := args.sizes
  let ks := keys ord args
  startKey sz ::
    ((boldKeys ord sz ks).flatMap fun c =>
      args.V2.map (insKey sz c) ++
        match c.urc with
        | [] => []
        | u :: _ => if u = stopStartChar then [] else args.V2.map (subKey sz c u) ++
          [delKey sz c u]) ++
    ((nonBoldKeys ord sz ks).flatMap fun c =>
      (args.V1 ++ [stopStartChar]).filterMap fun v1 =>
        if v1 = stopStartChar ∧ sz.urcMax = 0 then none
        else if goLoop false false (absKey sz c v1).urc then none
        else some (absKey sz c v1))

end StochasticEdit.Generator
