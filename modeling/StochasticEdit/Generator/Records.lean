import StochasticEdit.Generator.Relation

/-! The file `arc_to_action` (end of `main` of `context_edit.py`): one line for each arc
of the finished transducer, in state-major order and numbered from 0, that tells what
the arc does and in which contexts. -/

namespace StochasticEdit.Generator

open Wfst

variable {W : Type*} {ord : HashOrder} {args : Args} {c d : Context}

/-- The fields of a line after the arc id; no context is that of state 0. -/
structure Record where
  source : Option Context
  target : Option Context
  ilabel : Sym
  olabel : Sym
  action : Action
  deriving DecidableEq

section Output
variable (args : Args) (M : Machine W)

/-- `state_to_context`. -/
def Machine.context? : ℕ → Option (Option Context)
  | 0 => some none
  | q + 1 => M.stateToContext[q]?.map some

/-- The fields that are written for a key of `arc_map`. -/
def Machine.tmp (key : ℕ × ℕ × ℤ × ℤ) (action : Action) : Option Record := do
  let source ← M.context? key.1
  let target ← M.context? key.2.1
  let ilabel ← findSymbol args.symsIn key.2.2.1
  let olabel ← findSymbol args.symsOut key.2.2.2
  return ⟨source, target, ilabel, olabel, action⟩

/-- The inner loop over the arcs of a state. -/
def actionArcs (stateId : ℕ) : ℕ → List (Arc W) → Option (List (String × Record))
  | _, [] => some []
  | arcId, arc :: arcs =>
    let key := (stateId, arc.nextstate, arc.ilabel, arc.olabel)
    match M.arcMap.lookup key with
    | some action => do
      let tmp ← M.tmp args key action
      let rest ← actionArcs stateId (arcId + 1) arcs
      return (toString arcId, tmp) :: rest
    | none => actionArcs stateId (arcId + 1) arcs

/-- The loop over the states. -/
def actionStates : ℕ → ℕ → List (State W) → Option (List (String × Record))
  | _, _, [] => some []
  | stateId, arcId, state :: states => do
    let lines ← actionArcs args M stateId arcId state.arcs
    let rest ← actionStates (stateId + 1) (arcId + state.arcs.length) states
    return lines ++ rest

/-- The lines of the file. -/
def arcToAction : Option (List (String × Record)) := actionStates args M 0 0 M.fst.states

/-- What the file should say about an arc. -/
def Machine.record? (e : ℕ) : Option Record :=
  (M.fst.arc? e).bind fun p =>
    (M.arcMap.lookup (p.1, p.2.nextstate, p.2.ilabel, p.2.olabel)).bind
      (M.tmp args (p.1, p.2.nextstate, p.2.ilabel, p.2.olabel))

end Output

/-! ### One line for each arc -/

section Loops
variable {M : Machine W} {r : ℕ → Record}

theorem actionArcs_eq (q e : ℕ) (arcs : List (Arc W))
    (h : ∀ k a, arcs[k]? = some a → (M.arcMap.lookup (q, a.nextstate, a.ilabel, a.olabel)).bind
      (M.tmp args (q, a.nextstate, a.ilabel, a.olabel)) = some (r (e + k))) :
    actionArcs args M q e arcs =
      some ((List.range' e arcs.length).map fun i => (toString i, r i)) := by
  induction arcs generalizing e with
  | nil => rfl
  | cons a arcs ih =>
    obtain ⟨action, hact, htmp⟩ := Option.bind_eq_some_iff.mp (h 0 a rfl)
    have hrest := ih (e + 1) fun k b hb => by
      rw [h (k + 1) b (by simpa using hb)]
      congr 2
      omega
    rw [actionArcs, hact]
    simp only [htmp, hrest, Nat.add_zero, Option.bind_eq_bind, Option.bind_some, List.length_cons,
      List.range'_succ, List.map_cons]
    rfl

theorem actionStates_eq (q e : ℕ) (ss : List (State W))
    (h : ∀ j s k a, ss[j]? = some s → s.arcs[k]? = some a → (M.arcMap.lookup (q + j, a.nextstate,
      a.ilabel, a.olabel)).bind (M.tmp args (q + j, a.nextstate, a.ilabel, a.olabel)) =
        some (r (e + arcsBefore ss j + k))) :
    actionStates args M q e ss =
      some ((List.range' e (arcsBefore ss ss.length)).map fun i => (toString i, r i)) := by
  induction ss generalizing q e with
  | nil => rfl
  | cons s ss ih =>
    have hs := @actionArcs_eq _ args M r q e s.arcs fun k a ha => h 0 s k a rfl ha
    have hrest := ih (q + 1) (e + s.arcs.length) fun j t k a ht ha => by
      have hnext := h (j + 1) t k a (by simpa using ht) ha
      rwa [arcsBefore, ← Nat.add_assoc e, Nat.add_comm j 1, ← Nat.add_assoc q] at hnext
    simp only [actionStates, hs, hrest, Option.bind_eq_bind, Option.bind_some, List.length_cons,
      arcsBefore, ← List.map_append, List.range'_append_1]
    rfl

/-- If every arc has a record, the file holds them in order. -/
theorem arcToAction_eq (h : ∀ e, e < M.fst.numArcs → M.record? args e = some (r e)) :
    arcToAction args M =
      some ((List.range M.fst.numArcs).map fun i => (toString i, r i)) := by
  rw [List.range_eq_range', VectorFst.numArcs_eq]
  refine actionStates_eq 0 0 M.fst.states fun j s k a hs ha => ?_
  have harc : M.fst.arc? (M.fst.firstArc j + k) = some (j, a) :=
    VectorFst.arc?_eq_some_iff.mpr ⟨s, k, hs, ha, rfl⟩
  have hrec := h _ (VectorFst.lt_numArcs_of_arc? harc)
  rw [Machine.record?, harc, Option.bind_some] at hrec
  rw [Nat.zero_add, Nat.zero_add]
  exact hrec

end Loops

/-! ### Every arc has a record -/

/-- The name of the symbol that a move reads. -/
def Move.isym : Move → Sym
  | .abs v => v
  | _ => epsilon

/-- The name of the symbol that a move writes. -/
def Move.osym : Move → Sym
  | .ins v => v
  | .sub v => v
  | _ => epsilon

section Finished
variable [One W] {M : Machine W}

theorem context?_stateNum (h : contextualEdit W ord args = some M) (hc : IsKey args c) :
    M.context? (stateNum ord args c) = some (some c) := by
  obtain ⟨start, calls, -, -, -, hctx⟩ := exists_arcCalls h
  obtain ⟨n, hn⟩ := Nat.exists_eq_add_of_le' (stateNum_pos ord hc)
  have hget := getElem?_stateNum ord hc
  rw [hn, Nat.add_sub_cancel] at hget
  rw [hn, Machine.context?, hctx, hget]
  rfl

/-- Arcs lead to enumerated states, whatever the alphabets are. -/
theorem context?_isSome (h : contextualEdit W ord args = some M) {e q : ℕ} {a : Arc W}
    (he : M.fst.arc? e = some (q, a)) : (M.context? a.nextstate).isSome := by
  obtain ⟨start, calls, hcalls, -, -, hctx⟩ := exists_arcCalls h
  obtain ⟨c, m, hc, -, hm, rfl⟩ := exists_move_of_arc? h he
  have hle : (moveArc W ord args c m).nextstate ≤ (keys ord args).length :=
    dst_le_of_arcCalls hcalls _ (moveCall_mem_arcCalls hcalls hc hm)
  cases hq : (moveArc W ord args c m).nextstate with
  | zero => rfl
  | succ n =>
    have hn : n < (keys ord args).length := by omega
    rw [Machine.context?, hctx, List.getElem?_eq_getElem hn]
    rfl

theorem findSymbol_ilabel_isSome {m : Move} {t : Option Context} (hm : (m, t) ∈ moves args c) :
    (findSymbol args.symsIn (m.ilabel args)).isSome := by
  cases m with
  | abs v => exact findSymbol_isSome (symbolId_idIn (mem_moves_abs.mp hm).2.1)
  | _ => exact Option.isSome_of_eq_some (findSymbol_zero args.newTable args.V1)

theorem findSymbol_olabel_isSome {m : Move} {t : Option Context} (hm : (m, t) ∈ moves args c) :
    (findSymbol args.symsOut (m.olabel args)).isSome := by
  cases m with
  | ins v => exact findSymbol_isSome (symbolId_idOut (mem_moves_ins.mp hm).2.1)
  | sub v => exact findSymbol_isSome (symbolId_idOut (mem_moves_sub.mp hm).2.1)
  | _ => exact Option.isSome_of_eq_some (findSymbol_zero args.newTable args.V2)

theorem findSymbol_isym (hV : args.Unreserved) {m : Move} {t : Option Context}
    (hm : (m, t) ∈ moves args c) :
    findSymbol args.symsIn (m.ilabel args) = some m.isym := by
  cases m with
  | abs v => exact findSymbol_idIn hV (mem_moves_abs.mp hm).2.1
  | _ => exact findSymbol_zero args.newTable args.V1

theorem findSymbol_osym (hV : args.Unreserved) {m : Move} {t : Option Context}
    (hm : (m, t) ∈ moves args c) :
    findSymbol args.symsOut (m.olabel args) = some m.osym := by
  cases m with
  | ins v => exact findSymbol_idOut hV (mem_moves_ins.mp hm).2.1
  | sub v => exact findSymbol_idOut hV (mem_moves_sub.mp hm).2.1
  | _ => exact findSymbol_zero args.newTable args.V2

/-- The fields written for the arc of a move, given what `state_to_context` has for its
target, the symbol tables for its labels and `arc_map` for its key. -/
theorem record?_of_lookups (h : contextualEdit W ord args = some M) (hc : IsKey args c) {m : Move}
    {t : Option Context} {e : ℕ} {target : Option Context} {ilabel olabel : Sym} {action : Action}
    (he : M.fst.arc? e = some (stateNum ord args c, moveArc W ord args c (m, t)))
    (htarget : M.context? (targetNum ord args t) = some target)
    (hilabel : findSymbol args.symsIn (m.ilabel args) = some ilabel)
    (holabel : findSymbol args.symsOut (m.olabel args) = some olabel)
    (hlookup : M.arcMap.lookup (moveCall ord args c (m, t)).key = some action) :
    M.record? args e = some ⟨some c, target, ilabel, olabel, action⟩ := by
  have hkey : M.arcMap.lookup (stateNum ord args c, (moveArc W ord args c (m, t)).nextstate,
      (moveArc W ord args c (m, t)).ilabel, (moveArc W ord args c (m, t)).olabel) =
        some action := hlookup
  rw [Machine.record?, he, Option.bind_some, hkey, Option.bind_some]
  simp only [Machine.tmp, context?_stateNum h hc, Option.bind_eq_bind, Option.bind_some]
  show (M.context? (targetNum ord args t)).bind (fun target =>
    (findSymbol args.symsIn (m.ilabel args)).bind fun i =>
      (findSymbol args.symsOut (m.olabel args)).bind fun o => some _) = _
  rw [htarget, Option.bind_some, hilabel, Option.bind_some, holabel, Option.bind_some]

theorem record?_isSome (h : contextualEdit W ord args = some M) {e : ℕ} (he : e < M.fst.numArcs) :
    (M.record? args e).isSome := by
  obtain ⟨q, a, ha⟩ := VectorFst.exists_arc? he
  obtain ⟨target, htarget⟩ := Option.isSome_iff_exists.mp (context?_isSome h ha)
  obtain ⟨c, ⟨m, t⟩, hc, rfl, hm, rfl⟩ := exists_move_of_arc? h ha
  obtain ⟨action, haction⟩ := Option.isSome_iff_exists.mp (arcMap_isSome h hc hm)
  obtain ⟨ilabel, hilabel⟩ := Option.isSome_iff_exists.mp (findSymbol_ilabel_isSome hm)
  obtain ⟨olabel, holabel⟩ := Option.isSome_iff_exists.mp (findSymbol_olabel_isSome hm)
  rw [record?_of_lookups h hc ha htarget hilabel holabel haction]
  rfl

/-- The fields of a record, whatever the alphabets are. -/
theorem exists_fields_of_record? (h : contextualEdit W ord args = some M) {e : ℕ} {r : Record}
    (hr : M.record? args e = some r) : (∃ c, IsKey args c ∧ r.source = some c) ∧
      (∀ d ∈ r.target, IsKey args d) ∧
        (r.ilabel = epsilon ∨ r.ilabel ∈ args.V1 ∨ r.ilabel = stopStartChar) ∧
      (r.olabel = epsilon ∨ r.olabel ∈ args.V2 ∨ r.olabel = stopStartChar) := by
  obtain ⟨⟨q, a⟩, ha, hr⟩ := Option.bind_eq_some_iff.mp hr
  obtain ⟨action, -, hr⟩ := Option.bind_eq_some_iff.mp hr
  obtain ⟨c, m, hc, rfl, -, -⟩ := exists_move_of_arc? h ha
  simp only [Machine.tmp, context?_stateNum h hc, Option.bind_eq_bind, Option.bind_some,
    Option.bind_eq_some_iff] at hr
  obtain ⟨target, htarget, ilabel, hilabel, olabel, holabel, hr⟩ := hr
  obtain rfl := Option.some.inj hr
  refine ⟨⟨c, hc, rfl⟩, fun d hd => ?_, mem_of_findSymbol_symbolTable hilabel,
    mem_of_findSymbol_symbolTable holabel⟩
  obtain rfl : target = some d := hd
  obtain ⟨start, calls, -, -, -, hctx⟩ := exists_arcCalls h
  cases hq : a.nextstate with
  | zero => simp [hq, Machine.context?] at htarget
  | succ n =>
    simp only [hq, Machine.context?, hctx, Option.map_eq_some_iff, Option.some.injEq,
      exists_eq_right] at htarget
    exact mem_keys.mp (List.mem_of_getElem? htarget)

/-- The file numbers the arcs of the transducer from 0 on. -/
theorem exists_arcToAction (h : contextualEdit W ord args = some M) : ∃ r : ℕ → Record,
    (∀ e, e < M.fst.numArcs → M.record? args e = some (r e)) ∧
    arcToAction args M = some ((List.range M.fst.numArcs).map fun i => (toString i, r i)) := by
  have hr : ∀ e, e < M.fst.numArcs →
      M.record? args e = some ((M.record? args e).getD ⟨none, none, epsilon, epsilon, .FINAL⟩) := by
    intro e he
    obtain ⟨r, hr⟩ := Option.isSome_iff_exists.mp (record?_isSome h he)
    rw [hr, Option.getD_some]
  exact ⟨_, hr, arcToAction_eq hr⟩

/-! ### Different arcs have different records -/

/-- A construction that ends has looked up no missing key. -/
theorem completes_of_sharp (h : contextualEdit W ord args = some M)
    (hsharp : stopStartChar ∉ args.V1) : Completes args := by
  by_contra hne
  simp only [Completes, not_or, not_le] at hne
  obtain ⟨hul, hur, hV1⟩ := hne
  obtain ⟨v, hv⟩ := List.exists_mem_of_ne_nil _ hV1
  have hs : v ≠ stopStartChar := fun hs => hsharp (hs ▸ hv)
  obtain ⟨hkey, hbold⟩ := brinkContext_isKey hv (Nat.pos_of_ne_zero hur)
  obtain ⟨start, calls, hcalls, -⟩ := exists_arcCalls h
  simp only [arcCalls, Option.bind_eq_bind, Option.bind_eq_some_iff] at hcalls
  obtain ⟨-, -, bold, hb, -⟩ := hcalls
  have hcall := forEach_isSome_iff.mp (Option.isSome_iff_exists.mpr ⟨bold, hb⟩) _
    (mem_boldKeys.mpr ⟨hkey, hbold⟩)
  obtain ⟨l, hl⟩ := Option.isSome_iff_exists.mp hcall
  simp only [boldCalls, Option.bind_eq_bind, Option.bind_eq_some_iff] at hl
  obtain ⟨-, -, -, -, del, hdel, -⟩ := hl
  simp only [delCalls, brinkContext, if_neg hs, Option.bind_eq_bind,
    Option.bind_eq_some_iff] at hdel
  obtain ⟨-, -, dst, hdst, -⟩ := hdel
  exact delKey_brinkContext_not_isKey hul hs
    (lookup_isSome_iff.mp (Option.isSome_iff_exists.mpr ⟨dst, hdst⟩))

theorem completes_of_contextualEdit (h : contextualEdit W ord args = some M)
    (hV : args.Unreserved) :
    Completes args := completes_of_sharp h hV.upper.sharp

/-- What the file says about the arc that was added for a move. -/
theorem record?_of_move (h : contextualEdit W ord args = some M) (hV : args.Unreserved)
    (hc : IsKey args c) {m : Move} {t : Option Context} (hm : (m, t) ∈ moves args c) {e : ℕ}
    (he : M.fst.arc? e = some (stateNum ord args c, moveArc W ord args c (m, t))) :
    M.record? args e = some ⟨some c, t, m.isym, m.osym, m.action⟩ := by
  have hsz := completes_of_contextualEdit h hV
  refine record?_of_lookups h hc he ?_ (findSymbol_isym hV hm) (findSymbol_osym hV hm)
    (arcMap_lookup h hV hsz hc hm)
  cases t with
  | none => rfl
  | some d => exact context?_stateNum h (target_isKey hsz hc hm)

/-- Every record is that of a move, -/
theorem exists_move_of_record? (h : contextualEdit W ord args = some M) (hV : args.Unreserved)
    {e : ℕ} {r : Record} (hr : M.record? args e = some r) :
    ∃ c m t, IsKey args c ∧ (m, t) ∈ moves args c ∧
      M.fst.arc? e = some (stateNum ord args c, moveArc W ord args c (m, t)) ∧
      r = ⟨some c, t, m.isym, m.osym, m.action⟩ := by
  obtain ⟨⟨q, a⟩, ha, -⟩ := Option.bind_eq_some_iff.mp hr
  obtain ⟨c, ⟨m, t⟩, hc, rfl, hm, rfl⟩ := exists_move_of_arc? h ha
  exact ⟨c, m, t, hc, hm, ha, Option.some.inj (hr.symm.trans (record?_of_move h hV hc hm ha))⟩

/-- and every move has a record. -/
theorem exists_record?_of_move (h : contextualEdit W ord args = some M) (hV : args.Unreserved)
    (hc : IsKey args c) {m : Move} {t : Option Context} (hm : (m, t) ∈ moves args c) :
    ∃ e < M.fst.numArcs, M.record? args e = some ⟨some c, t, m.isym, m.osym, m.action⟩ := by
  obtain ⟨e, he⟩ := exists_arc?_of_move h hc hm
  exact ⟨e, VectorFst.lt_numArcs_of_arc? he,
    record?_of_move h hV hc hm he⟩

/-- An action and its symbols tell which move it is. -/
theorem move_eq_of_names {m m' : Move} (hact : m.action = m'.action) (hi : m.isym = m'.isym)
    (ho : m.osym = m'.osym) : m = m' := by
  cases m <;> cases m' <;> simp_all [Move.action, Move.isym, Move.osym]

end Finished

end StochasticEdit.Generator
