import StochasticEdit.Generator.Keys

/-! The moves out of a context, with their targets, in the order in which the
program adds the arcs; the arcs of the finished transducer are exactly these
moves. The final state 0 is the target `none`. -/

namespace StochasticEdit.Generator

open Wfst

inductive Move
  | final
  | ins (v2 : Sym)
  | sub (v2 : Sym)
  | del
  | abs (v1 : Sym)
  deriving DecidableEq

def finalMoves (sz : Sizes) (c : Context) : List (Move × Option Context) :=
  if c.urc.length = sz.urcMax ∧ allStopStart c.urc then [(.final, none)] else []

/-- SUB and DEL need a symbol of the upper string to consume. -/
def consumingMoves (args : Args) (c : Context) : List (Move × Option Context) :=
  match c.urc with
  | [] => []
  | u :: _ =>
    if u = stopStartChar then []
    else args.V2.map (fun v => (.sub v, some (subKey args.sizes c u v))) ++
      [(.del, some (delKey args.sizes c u))]

def boldMoves (args : Args) (c : Context) : List (Move × Option Context) :=
  args.V2.map (fun v => (.ins v, some (insKey args.sizes c v))) ++ consumingMoves args c

def absMoves (args : Args) (c : Context) : List (Move × Option Context) :=
  (args.V1 ++ [stopStartChar]).filterMap fun v =>
    if v = stopStartChar ∧ args.sizes.urcMax = 0 then none
    else if goLoop false false (absKey args.sizes c v).urc then none
    else some (.abs v, some (absKey args.sizes c v))

def moves (args : Args) (c : Context) : List (Move × Option Context) :=
  finalMoves args.sizes c ++ if isBold args.sizes c then boldMoves args c else absMoves args c

section Labels
variable (args : Args)

def idIn (v : Sym) : ℤ := (symbolId args.symsIn v).getD 0

def idOut (v : Sym) : ℤ := (symbolId args.symsOut v).getD 0

def Move.ilabel : Move → ℤ
  | .abs v => idIn args v
  | _ => 0

def Move.olabel : Move → ℤ
  | .ins v => idOut args v
  | .sub v => idOut args v
  | _ => 0

end Labels

def Move.action : Move → Action
  | .final => .FINAL
  | .ins _ => .INS
  | .sub _ => .SUB
  | .del => .DEL
  | .abs _ => .ABS

/-- The state of a target. -/
def targetNum (ord : HashOrder) (args : Args) : Option Context → ℕ
  | none => 0
  | some c => stateNum ord args c

/-- The call of `add_arc` for a move. -/
def moveCall (ord : HashOrder) (args : Args) (c : Context) (m : Move × Option Context) : ArcCall :=
  ⟨stateNum ord args c, targetNum ord args m.2, m.1.ilabel args, m.1.olabel args, m.1.action⟩

variable {ord : HashOrder} {args : Args}

/-! ### The loops that collect calls -/

theorem forEach_isSome_iff {α β : Type*} {f : α → Option (List β)} {l : List α} :
    (forEach f l).isSome ↔ ∀ a ∈ l, (f a).isSome := by
  induction l with
  | nil => simp [forEach]
  | cons a l ih =>
    simp only [forEach, List.mem_cons, forall_eq_or_imp, ← ih]
    cases f a <;> cases forEach f l <;> simp

/-- A loop that ends without an exception made the calls of each round in order. -/
theorem forEach_eq_some {α β : Type*} {f : α → Option (List β)} {g : α → List β} {l : List α}
    {r : List β} (h : forEach f l = some r) (hg : ∀ a ∈ l, ∀ b, f a = some b → b = g a) :
    r = l.flatMap g := by
  induction l generalizing r with
  | nil => simpa [forEach] using h.symm
  | cons a l ih =>
    simp only [forEach, Option.bind_eq_bind, Option.bind_eq_some_iff] at h
    obtain ⟨bs, hb, cs, hc, h⟩ := h
    obtain rfl := Option.some.inj h
    rw [List.flatMap_cons, hg a (by simp) bs hb,
      ih hc fun a' ha' => hg a' (List.mem_cons_of_mem _ ha')]

theorem lookup_eq_stateNum {c : Context} {n : ℕ}
    (h : (allLookup (keys ord args)).lookup c = some n) : n = stateNum ord args c := by
  rw [stateNum, h, Option.getD_some]

/-- A call with the states that the dictionary has for a context and a target. -/
theorem call_eq_moveCall {c d : Context} {src dst : ℕ} (m : Move)
    (hs : (allLookup (keys ord args)).lookup c = some src)
    (hd : (allLookup (keys ord args)).lookup d = some dst) :
    ⟨src, dst, m.ilabel args, m.olabel args, m.action⟩ = moveCall ord args c (m, some d) := by
  rw [moveCall, targetNum, lookup_eq_stateNum hs, lookup_eq_stateNum hd]

theorem symbolId_out {v : Sym} {l : ℤ} (h : symbolId args.symsOut v = some l) :
    l = idOut args v := by
  rw [idOut, h, Option.getD_some]

theorem symbolId_in {v : Sym} {l : ℤ} (h : symbolId args.symsIn v = some l) :
    l = idIn args v := by
  rw [idIn, h, Option.getD_some]

/-- The body of a loop over the output symbols. -/
theorem outCall_eq {c d : Context} {m : Move} {v : Sym} (hin : m.ilabel args = 0)
    (hout : m.olabel args = idOut args v) {b : List ArcCall} (h : (do
      let src ← (allLookup (keys ord args)).lookup c
      let dst ← (allLookup (keys ord args)).lookup d
      let olabel ← symbolId args.symsOut v
      return [⟨src, dst, 0, olabel, m.action⟩]) = some b) :
    b = [moveCall ord args c (m, some d)] := by
  simp only [Option.bind_eq_bind, Option.bind_eq_some_iff] at h
  obtain ⟨src, hs, dst, hd, ol, ho, h⟩ := h
  obtain rfl := Option.some.inj h
  rw [symbolId_out ho, ← hout, ← hin]
  exact congrArg ([·]) (call_eq_moveCall m hs hd)

theorem insCalls_eq {c : Context} {l : List ArcCall}
    (h : insCalls args (allLookup (keys ord args)) c = some l) :
    l = (args.V2.map fun v => (Move.ins v, some (insKey args.sizes c v))).map
      (moveCall ord args c) := by
  rw [List.map_map, List.map_eq_flatMap]
  exact forEach_eq_some h fun v _ b hb => outCall_eq (m := .ins v) rfl rfl hb

theorem consumingCalls_eq {c : Context} {l l' : List ArcCall}
    (h : subCalls args (allLookup (keys ord args)) c = some l)
    (h' : delCalls args (allLookup (keys ord args)) c = some l') :
    l ++ l' = (consumingMoves args c).map (moveCall ord args c) := by
  unfold subCalls at h
  unfold delCalls at h'
  unfold consumingMoves
  cases hu : c.urc with
  | nil =>
    simp only [hu] at h h'
    rw [forEach_eq_some (g := fun _ => []) h fun _ _ b hb => (Option.some.inj hb).symm,
      ← Option.some.inj h']
    simp
  | cons u t =>
    simp only [hu] at h h'
    by_cases hs : u = stopStartChar
    · simp only [if_pos hs] at h h' ⊢
      rw [forEach_eq_some (g := fun _ => []) h fun _ _ b hb => (Option.some.inj hb).symm,
        ← Option.some.inj h']
      simp
    · simp only [if_neg hs] at h h' ⊢
      rw [List.map_append, List.map_map]
      congr 1
      · rw [List.map_eq_flatMap]
        exact forEach_eq_some h fun v _ b hb => outCall_eq (m := .sub v) rfl rfl hb
      · simp only [Option.bind_eq_bind, Option.bind_eq_some_iff] at h'
        obtain ⟨src, hs, dst, hd, hb⟩ := h'
        obtain rfl := Option.some.inj hb
        exact congrArg ([·]) (call_eq_moveCall .del hs hd)

theorem boldCalls_eq {c : Context} {l : List ArcCall}
    (h : boldCalls args (allLookup (keys ord args)) c = some l) :
    l = (boldMoves args c).map (moveCall ord args c) := by
  simp only [boldCalls, Option.bind_eq_bind, Option.bind_eq_some_iff] at h
  obtain ⟨i, hi, s, hs, d, hd, h⟩ := h
  obtain rfl := Option.some.inj h
  rw [boldMoves, List.map_append, ← insCalls_eq hi, ← consumingCalls_eq hs hd, List.append_assoc]

theorem absCalls_eq {c : Context} {l : List ArcCall}
    (h : absCalls args (allLookup (keys ord args)) c = some l) :
    l = (absMoves args c).map (moveCall ord args c) := by
  rw [absMoves, List.filterMap_eq_flatMap_toList, List.map_flatMap]
  refine forEach_eq_some h fun v _ b hb => ?_
  split_ifs at hb ⊢ with h₁ h₂
  · simpa using hb.symm
  · simpa using hb.symm
  · simp only [Option.bind_eq_bind, Option.bind_eq_some_iff] at hb
    obtain ⟨src, hs, dst, hd, il, hi, hb⟩ := hb
    obtain rfl := Option.some.inj hb
    rw [symbolId_in hi]
    exact congrArg ([·]) (call_eq_moveCall (.abs v) hs hd)

theorem mem_zipIdx_keys {c : Context} {n : ℕ} (h : (c, n) ∈ allLookup (keys ord args)) :
    n = stateNum ord args c := by
  obtain ⟨hn, hlt, hget⟩ := List.mem_zipIdx h
  have hkey : IsKey args c := mem_keys.mp (hget ▸ List.getElem_mem _)
  obtain ⟨hlt', heq⟩ := List.getElem?_eq_some_iff.mp (getElem?_stateNum ord hkey)
  have hidx := (keys_nodup ord args).getElem_inj_iff.mp (heq.trans hget)
  have := stateNum_pos ord hkey
  omega

theorem finalCalls_eq : finalCalls args.sizes (allLookup (keys ord args)) =
    (keys ord args).flatMap fun c => (finalMoves args.sizes c).map (moveCall ord args c) := by
  have hfst : (allLookup (keys ord args)).map Prod.fst = keys ord args := List.zipIdx_map_fst 1 _
  rw [finalCalls, List.filterMap_eq_flatMap_toList]
  conv_rhs => rw [← hfst, List.flatMap_map]
  refine List.flatMap_congr fun p hp => ?_
  rw [mem_zipIdx_keys (c := p.1) (n := p.2) hp, finalMoves]
  split_ifs
  · simp [moveCall, targetNum, Move.ilabel, Move.olabel, Move.action]
  · simp

/-! ### The arcs of a state -/

/-- Of a loop over keys that makes calls for each, the calls with one source. -/
theorem filter_src_flatMap {L : List Context} (hL : L.Nodup) (hkey : ∀ d ∈ L, IsKey args d)
    {g : Context → List ArcCall} (hg : ∀ d ∈ L, ∀ k ∈ g d, k.src = stateNum ord args d)
    {c : Context} (hc : IsKey args c) :
    (L.flatMap g).filter (fun k => k.src = stateNum ord args c) = if c ∈ L then g c else [] := by
  induction L with
  | nil => simp
  | cons d L ih =>
    rw [List.nodup_cons] at hL
    rw [List.flatMap_cons, List.filter_append,
      ih hL.2 (fun e he => hkey e (by simp [he])) fun e he => hg e (by simp [he])]
    by_cases hcd : c = d
    · subst hcd
      rw [List.filter_eq_self.mpr fun k hk => by simpa using hg c (by simp) k hk, if_neg hL.1]
      simp
    · rw [List.filter_eq_nil_iff.mpr]
      · simp [hcd]
      · intro k hk hsrc
        rw [decide_eq_true_eq, hg d (by simp) k hk] at hsrc
        exact hcd (stateNum_inj ord (hkey d (by simp)) hc hsrc).symm

theorem src_moveCall {c : Context} {l : List (Move × Option Context)} :
    ∀ k ∈ l.map (moveCall ord args c), k.src = stateNum ord args c := by
  intro k hk
  obtain ⟨m, -, rfl⟩ := List.mem_map.mp hk
  rfl

theorem boldKeys_nodup : (boldKeys ord args.sizes (keys ord args)).Nodup :=
  (ord.perm _).nodup_iff.mpr ((keys_nodup ord args).filter _)

theorem nonBoldKeys_nodup : (nonBoldKeys ord args.sizes (keys ord args)).Nodup :=
  (ord.perm _).nodup_iff.mpr ((keys_nodup ord args).filter _)

theorem mem_boldKeys {c : Context} :
    c ∈ boldKeys ord args.sizes (keys ord args) ↔ IsKey args c ∧ isBold args.sizes c := by
  rw [boldKeys, mem_iter, List.mem_filter, mem_keys]

theorem mem_nonBoldKeys {c : Context} :
    c ∈ nonBoldKeys ord args.sizes (keys ord args) ↔ IsKey args c ∧ ¬ isBold args.sizes c := by
  rw [nonBoldKeys, mem_iter, List.mem_filter, mem_keys]
  simp

/-- A completed construction in closed form. -/
theorem arcCalls_eq {start : ℕ} {calls : List ArcCall}
    (h : arcCalls ord args = some (start, calls)) :
    start = stateNum ord args (startKey args.sizes) ∧ calls =
      ((keys ord args).flatMap fun c => (finalMoves args.sizes c).map (moveCall ord args c)) ++
      ((boldKeys ord args.sizes (keys ord args)).flatMap fun c =>
        (boldMoves args c).map (moveCall ord args c)) ++
      (nonBoldKeys ord args.sizes (keys ord args)).flatMap fun c =>
        (absMoves args c).map (moveCall ord args c) := by
  simp only [arcCalls, Option.bind_eq_bind, Option.bind_eq_some_iff] at h
  obtain ⟨s, hs, b, hb, n, hn, h⟩ := h
  obtain ⟨rfl, rfl⟩ := Prod.mk.inj (Option.some.inj h)
  refine ⟨lookup_eq_stateNum hs, ?_⟩
  rw [finalCalls_eq, forEach_eq_some hb fun c _ l hl => boldCalls_eq hl,
    forEach_eq_some hn fun c _ l hl => absCalls_eq hl]

/-- The calls for one state are its moves. -/
theorem filter_arcCalls {start : ℕ} {calls : List ArcCall}
    (h : arcCalls ord args = some (start, calls)) {c : Context} (hc : IsKey args c) :
    calls.filter (fun k => k.src = stateNum ord args c) =
      (moves args c).map (moveCall ord args c) := by
  rw [(arcCalls_eq h).2, List.filter_append, List.filter_append,
    filter_src_flatMap (keys_nodup ord args) (fun d hd => mem_keys.mp hd)
      (fun d _ => src_moveCall) hc,
    filter_src_flatMap boldKeys_nodup (fun d hd => (mem_boldKeys.mp hd).1)
      (fun d _ => src_moveCall) hc,
    filter_src_flatMap nonBoldKeys_nodup (fun d hd => (mem_nonBoldKeys.mp hd).1)
      (fun d _ => src_moveCall) hc]
  simp only [mem_keys, hc, if_true, mem_boldKeys, mem_nonBoldKeys, true_and, moves, List.map_append]
  by_cases hb : isBold args.sizes c <;> simp [hb]

end StochasticEdit.Generator
