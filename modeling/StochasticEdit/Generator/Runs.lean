import StochasticEdit.Generator.Arcs

/-! The relation of the transducer. A run is the list of moves from a context to the
final state. What a run has still to read is tied to its buffer: the right context
followed by the unread input is always the rest of the upper string followed by
the boundary symbols. From this a run can be rebuilt from its edits alone. -/

namespace StochasticEdit.Generator

open Wfst

variable {ord : HashOrder} {args : Args} {c d : Context}

/-- The edit arcs, with the symbol they write. -/
inductive Edit
  | ins (v2 : Sym)
  | sub (v2 : Sym)
  | del
  deriving DecidableEq

/-- SUB and DEL consume an upper symbol. -/
def Edit.consumes : Edit → Bool
  | .ins _ => false
  | _ => true

def Edit.symbol? : Edit → Option Sym
  | .ins v2 => some v2
  | .sub v2 => some v2
  | .del => none

/-- The number of SUB and DEL edits. -/
def consumptions (es : List Edit) : ℕ := es.countP Edit.consumes

/-- The symbols written by INS and SUB. -/
def spelled (es : List Edit) : List Sym := es.filterMap Edit.symbol?

theorem consumptions_cons (e : Edit) (es : List Edit) :
    consumptions (e :: es) = consumptions es + if e.consumes then 1 else 0 := List.countP_cons

theorem spelled_cons (e : Edit) (es : List Edit) :
    spelled (e :: es) = e.symbol?.toList ++ spelled es := by
  cases e <;> rfl

def Move.read? : Move → Option Sym
  | .abs v => some v
  | _ => none

def Move.edit? : Move → Option Edit
  | .ins v => some (.ins v)
  | .sub v => some (.sub v)
  | .del => some .del
  | _ => none

/-- The symbols that a list of moves reads. -/
def reading (ms : List Move) : List Sym := ms.filterMap Move.read?

/-- The edits of a list of moves. -/
def editsOf (ms : List Move) : List Edit := ms.filterMap Move.edit?

theorem reading_cons (m : Move) (ms : List Move) :
    reading (m :: ms) = m.read?.toList ++ reading ms := by
  cases m <;> rfl

theorem editsOf_cons (m : Move) (ms : List Move) :
    editsOf (m :: ms) = m.edit?.toList ++ editsOf ms := by
  cases m <;> rfl

/-- The symbol that a move out of `c` consumes. -/
def taken (c : Context) : Move → List Sym
  | .sub _ => c.urc.take 1
  | .del => c.urc.take 1
  | _ => []

/-- A list of moves from a context to the final state. -/
inductive Run (args : Args) : Context → List Move → Prop
  | final {c : Context} : (Move.final, none) ∈ moves args c → Run args c [.final]
  | step {c d : Context} {m : Move} {ms : List Move} :
      (m, some d) ∈ moves args c → Run args d ms → Run args c (m :: ms)

/-- The boundary symbols behind the upper string. -/
def padding (args : Args) : List Sym := List.replicate args.sizes.urcMax stopStartChar

/-- With the right context and the unread input `rest`, the upper string goes on
with `x`. -/
def Pending (args : Args) (c : Context) (rest x : List Sym) : Prop :=
  (∀ s ∈ x, s ∈ args.V1) ∧ c.urc ++ rest = x ++ padding args

/-! ### What a run reads and writes -/

theorem length_ulc (hu : args.sizes.ulcMax ≤ 1) (hc : IsKey args c) :
    c.ulc.length = args.sizes.ulcMax := by
  have hle := hc.ulc_length
  have hne := hc.ulc_nonempty
  rcases hulc : c.ulc with _ | ⟨s, t⟩
  · simp [hne hulc]
  · simp only [hulc, List.length_cons] at hle ⊢
    omega

theorem length_llc (hl : args.sizes.llcMax ≤ 1) (hc : IsKey args c) :
    c.llc.length = args.sizes.llcMax := by
  have hle := hc.llc_length
  have hne := hc.llc_nonempty
  rcases hllc : c.llc with _ | ⟨s, t⟩
  · simp [hne hllc]
  · simp only [hllc, List.length_cons] at hle ⊢
    omega

/-- With left windows of at most one symbol only the right window fills up. -/
theorem isBold_iff_length_urc (hu : args.sizes.ulcMax ≤ 1) (hl : args.sizes.llcMax ≤ 1)
    (hc : IsKey args c) : isBold args.sizes c ↔ c.urc.length = args.sizes.urcMax := by
  rw [isBold_iff]
  exact ⟨fun h => h.2.1, fun h => ⟨length_ulc hu hc, h, length_llc hl hc⟩⟩

theorem length_urc_lt (hu : args.sizes.ulcMax ≤ 1) (hl : args.sizes.llcMax ≤ 1) (hc : IsKey args c)
    (hb : ¬ isBold args.sizes c) : c.urc.length < args.sizes.urcMax :=
  lt_of_le_of_ne hc.urc_length fun h => hb ((isBold_iff_length_urc hu hl hc).mpr h)

/-- A symbol of the right context that is not a boundary symbol is consumed. -/
theorem pending_of_consume {u : Sym} {l rest x : List Sym} (hc : IsKey args c)
    (hurc : c.urc = u :: l) (hs : u ≠ stopStartChar) (hd : d.urc = bump2 c.urc)
    (h : Pending args d rest x) :
    Pending args c rest (u :: x) := by
  have hu : u ∈ args.V1 := (hc.urc_mem u (by simp [hurc])).resolve_right hs
  have hdl : d.urc = l := by rw [hd, hurc]; rfl
  constructor
  · simpa [hu] using h.1
  · rw [hurc, List.cons_append, ← hdl, h.2, List.cons_append]

/-- A move reads ahead or consumes, and what goes on behind it goes on before it. -/
theorem Pending.of_move {rest x : List Sym} (hu : args.sizes.ulcMax ≤ 1)
    (hl : args.sizes.llcMax ≤ 1) (hc : IsKey args c) {m : Move} (hm : (m, some d) ∈ moves args c)
    (h : Pending args d rest x) :
    Pending args c (m.read?.toList ++ rest) (taken c m ++ x) := by
  cases m with
  | final => simpa using (mem_moves_final.mp hm).1
  | ins v =>
    obtain ⟨-, -, hd⟩ := mem_moves_ins.mp hm
    obtain rfl := Option.some.inj hd
    exact h
  | sub v =>
    obtain ⟨-, -, u, l, hurc, hs, hd⟩ := mem_moves_sub.mp hm
    obtain rfl := Option.some.inj hd
    rw [taken, hurc]
    exact pending_of_consume hc hurc hs rfl h
  | del =>
    obtain ⟨-, u, l, hurc, hs, hd⟩ := mem_moves_del.mp hm
    obtain rfl := Option.some.inj hd
    rw [taken, hurc]
    exact pending_of_consume hc hurc hs rfl h
  | abs v =>
    obtain ⟨hb, -, -, -, hd⟩ := mem_moves_abs.mp hm
    obtain rfl := Option.some.inj hd
    refine ⟨h.1, ?_⟩
    show c.urc ++ v :: rest = x ++ padding args
    rw [← h.2, absKey, addReverse_of_lt (length_urc_lt hu hl hc hb), List.append_assoc,
      List.singleton_append]

/-- A move consumes one symbol if its edit does, and writes a lower symbol. -/
theorem length_taken {t : Option Context} {m : Move} (hm : (m, t) ∈ moves args c) :
    (taken c m).length = consumptions m.edit?.toList ∧ ∀ s ∈ spelled m.edit?.toList,
      s ∈ args.V2 := by
  cases m with
  | final => exact ⟨rfl, by simp [Move.edit?, spelled]⟩
  | ins v =>
    exact ⟨rfl, by simpa [Move.edit?, spelled, Edit.symbol?] using (mem_moves_ins.mp hm).2.1⟩
  | sub v =>
    obtain ⟨-, hv, u, l, hurc, -, -⟩ := mem_moves_sub.mp hm
    rw [taken, hurc]
    exact ⟨rfl, by simpa [Move.edit?, spelled, Edit.symbol?] using hv⟩
  | del =>
    obtain ⟨-, u, l, hurc, -, -⟩ := mem_moves_del.mp hm
    rw [taken, hurc]
    exact ⟨rfl, by simp [Move.edit?, spelled, Edit.symbol?]⟩
  | abs v => exact ⟨rfl, by simp [Move.edit?, spelled]⟩

/-- A run spends its input: it reads the rest of the upper string and the padding,
and its edits consume that rest. -/
theorem Run.exists_pending (hsz : Completes args) (hu : args.sizes.ulcMax ≤ 1)
    (hl : args.sizes.llcMax ≤ 1) {ms : List Move} (h : Run args c ms) (hc : IsKey args c) :
    ∃ x, Pending args c (reading ms) x ∧ consumptions (editsOf ms) = x.length ∧
      ∀ s ∈ spelled (editsOf ms), s ∈ args.V2 := by
  induction h with
  | @final c hm =>
    obtain ⟨-, hlen, hall⟩ := mem_moves_final.mp hm
    have hurc : c.urc = padding args := List.eq_replicate_iff.mpr ⟨hlen, hall⟩
    exact ⟨[],
      ⟨by simp, by simp [reading, Move.read?, hurc]⟩, rfl, by simp [editsOf, Move.edit?, spelled]⟩
  | @step c d m ms hm hrun ih =>
    obtain ⟨x, hx, hcount, hout⟩ := ih (target_isKey hsz hc hm)
    obtain ⟨hlength, hsym⟩ := length_taken hm
    refine ⟨taken c m ++ x, ?_, ?_, ?_⟩
    · rw [reading_cons]
      exact hx.of_move hu hl hc hm
    · rw [editsOf_cons, consumptions, List.countP_append, List.length_append, hlength, ← hcount]
      rfl
    · rw [editsOf_cons, spelled, List.filterMap_append]
      intro s hs
      exact (List.mem_append.mp hs).elim (hsym s) (hout s)

/-! ### Rebuilding a run from its edits -/

def Edit.move : Edit → Move
  | .ins v => .ins v
  | .sub v => .sub v
  | .del => .del

/-- The next move when `rest` is to be read and `es` to be done: between the edits
the input is absorbed until the right context is full. -/
def nextMove (args : Args) (c : Context) (rest : List Sym) (es : List Edit) : Option Move :=
  if isBold args.sizes c then some (es.head?.elim .final Edit.move) else rest.head?.map .abs

theorem Run.head_eq (hu : args.sizes.ulcMax ≤ 1) (hl : args.sizes.llcMax ≤ 1) {ms : List Move}
    (h : Run args c ms) (hc : IsKey args c) :
    ms.head? = nextMove args c (reading ms) (editsOf ms) := by
  unfold nextMove
  cases h with
  | final hm =>
    obtain ⟨-, hlen, -⟩ := mem_moves_final.mp hm
    rw [if_pos ((isBold_iff_length_urc hu hl hc).mpr hlen)]
    rfl
  | @step _ d m ms hm hrun =>
    cases m with
    | final => simpa using (mem_moves_final.mp hm).1
    | ins v =>
      rw [if_pos (mem_moves_ins.mp hm).1]
      rfl
    | sub v =>
      rw [if_pos (mem_moves_sub.mp hm).1]
      rfl
    | del =>
      rw [if_pos (mem_moves_del.mp hm).1]
      rfl
    | abs v =>
      rw [if_neg (mem_moves_abs.mp hm).1]
      rfl

/-- A run is determined by what it reads and by its edits. -/
theorem Run.unique (hsz : Completes args) (hu : args.sizes.ulcMax ≤ 1) (hl : args.sizes.llcMax ≤ 1)
    {ms ms' : List Move} (h : Run args c ms) (h' : Run args c ms') (hc : IsKey args c)
    (hr : reading ms = reading ms') (he : editsOf ms = editsOf ms') : ms = ms' := by
  induction h generalizing ms' with
  | @final c hm =>
    have hhead := h'.head_eq hu hl hc
    rw [← hr, ← he, ← (Run.final hm).head_eq hu hl hc] at hhead
    cases h' with
    | final => rfl
    | step hm' =>
      obtain rfl := Option.some.inj hhead
      simpa using (mem_moves_final.mp hm').1
  | @step c d m ms hm hrun ih =>
    have hhead := h'.head_eq hu hl hc
    rw [← hr, ← he, ← (Run.step hm hrun).head_eq hu hl hc] at hhead
    cases h' with
    | final =>
      obtain rfl := Option.some.inj hhead
      simpa using (mem_moves_final.mp hm).1
    | step hm' hrun' =>
      obtain rfl := Option.some.inj hhead
      obtain rfl := Option.some.inj (target_unique hm hm')
      rw [reading_cons, reading_cons] at hr
      rw [editsOf_cons, editsOf_cons] at he
      rw [ih hrun' (target_isKey hsz hc hm) (List.append_cancel_left hr)
        (List.append_cancel_left he)]

theorem sharpAtEnd_append_padding {x : List Sym} (hx : stopStartChar ∉ x) :
    sharpAtEnd (x ++ padding args) := by
  rw [sharpAtEnd_iff, List.pairwise_append]
  refine ⟨List.pairwise_of_forall_mem_list fun i hi _ _ h => absurd (h ▸ hi) hx, ?_,
    fun i hi j hj h => absurd (h ▸ hi) hx⟩
  exact List.pairwise_replicate.mpr (.inr fun h => h)

/-- While the right context is not full, the next input symbol can be absorbed. -/
theorem abs_mem_moves (hV : args.Valid) (hr : 1 ≤ args.sizes.urcMax) {v : Sym} {rest x : List Sym}
    (hb : ¬ isBold args.sizes c) (hlt : c.urc.length < args.sizes.urcMax)
    (h : Pending args c (v :: rest) x) :
    (Move.abs v, some (absKey args.sizes c v)) ∈ moves args c ∧
      Pending args (absKey args.sizes c v) rest x := by
  have hurc : (absKey args.sizes c v).urc = c.urc ++ [v] := addReverse_of_lt hlt v
  have hsplit : (c.urc ++ [v]) ++ rest = x ++ padding args := by simpa using h.2
  have hx : stopStartChar ∉ x := fun hmem => hV.upper.sharp (h.1 _ hmem)
  refine ⟨mem_moves_abs.mpr ⟨hb, ?_, fun h0 => by omega, ?_, rfl⟩, h.1, by rw [hurc, hsplit]⟩
  · have hv : v ∈ x ++ padding args := hsplit ▸ by simp
    rcases List.mem_append.mp hv with hv | hv
    · exact .inl (h.1 v hv)
    · exact .inr (List.eq_of_mem_replicate hv)
  · rw [hurc, sharpAtEnd_iff]
    have hall := (sharpAtEnd_iff _).mp (@sharpAtEnd_append_padding args x hx)
    rw [← hsplit] at hall
    exact (List.pairwise_append.mp hall).1

/-- A full right context shows the next upper symbol, or only boundary symbols when
the upper string is used up. -/
theorem urc_of_full {rest x : List Sym} (hlen : c.urc.length = args.sizes.urcMax)
    (hr : 1 ≤ args.sizes.urcMax) (h : Pending args c rest x) :
    (x = [] → c.urc = padding args ∧ rest = []) ∧
      ∀ u x', x = u :: x' → ∃ l, c.urc = u :: l ∧ l ++ rest = x' ++ padding args := by
  constructor
  · rintro rfl
    have := List.append_inj (h.2.trans (List.append_nil (padding args)).symm)
      (by simp [padding, hlen])
    exact this
  · rintro u x' rfl
    rcases hurc : c.urc with _ | ⟨u', l⟩
    · simp [hurc] at hlen
      omega
    · have heq := h.2
      rw [hurc, List.cons_append, List.cons_append, List.cons.injEq] at heq
      exact ⟨l, by rw [heq.1], heq.2⟩

/-- The consuming moves of a full right context. -/
theorem consume_mem_moves (hV : args.Valid) (hr : 1 ≤ args.sizes.urcMax)
    (hb : isBold args.sizes c) {rest x : List Sym} {u : Sym} (h : Pending args c rest (u :: x)) :
    (∀ v ∈ args.V2, (Move.sub v, some (subKey args.sizes c u v)) ∈ moves args c) ∧
      (Move.del, some (delKey args.sizes c u)) ∈ moves args c ∧
      ∀ d : Context, d.urc = bump2 c.urc → Pending args d rest x := by
  obtain ⟨l, hurc, hl⟩ := (urc_of_full (isBold_iff.mp hb).2.1 hr h).2 u x rfl
  have hs : u ≠ stopStartChar := fun heq => hV.upper.sharp (heq ▸ h.1 u (by simp))
  refine ⟨fun v hv => mem_moves_sub.mpr ⟨hb, hv, u, l, hurc, hs, rfl⟩,
    mem_moves_del.mpr ⟨hb, u, l, hurc, hs, rfl⟩, fun d hd => ⟨fun s hs => h.1 s (by simp [hs]), ?_⟩⟩
  rw [hd, hurc]
  exact hl

/-- Every sequence of edits that consumes the upper string is the sequence of some
run. The recursion is on the edits and the unread input together. -/
theorem exists_run (hV : args.Valid) (hu : args.sizes.ulcMax ≤ 1) (hl : args.sizes.llcMax ≤ 1)
    (hr : 1 ≤ args.sizes.urcMax) (c : Context) (rest x : List Sym) (es : List Edit)
    (hc : IsKey args c) (h : Pending args c rest x) (hcount : consumptions es = x.length)
    (hout : ∀ s ∈ spelled es, s ∈ args.V2) :
    ∃ ms, Run args c ms ∧ reading ms = rest ∧ editsOf ms = es := by
  have hsz : Completes args := .inl hu
  by_cases hb : isBold args.sizes c
  · have hlen := (isBold_iff.mp hb).2.1
    match es with
    | [] =>
      obtain rfl : x = [] := List.length_eq_zero_iff.mp hcount.symm
      obtain ⟨hurc, rfl⟩ := (urc_of_full hlen hr h).1 rfl
      have hfinal : (Move.final, none) ∈ moves args c :=
        mem_moves_final.mpr ⟨rfl, hlen, fun s hs => List.eq_of_mem_replicate (hurc ▸ hs)⟩
      exact ⟨[.final], .final hfinal, rfl, rfl⟩
    | .ins v :: es =>
      have hmem := mem_moves_ins.mpr ⟨hb, hout v (by simp [spelled_cons, Edit.symbol?]), rfl⟩
      have hcount' : consumptions es =
          x.length := by simpa [consumptions_cons, Edit.consumes] using hcount
      obtain ⟨ms, hrun, hread, hes⟩ := exists_run hV hu hl hr (insKey args.sizes c v) rest x es
        (target_isKey hsz hc hmem) h hcount' fun s hs => hout s (by simp [spelled_cons, hs])
      exact ⟨.ins v :: ms, .step hmem hrun, hread, by rw [← hes]; rfl⟩
    | .sub v :: es =>
      match x with
      | [] => simp [consumptions_cons, Edit.consumes] at hcount
      | u :: x =>
        obtain ⟨hsub, -, hpend⟩ := consume_mem_moves hV hr hb h
        have hmem := hsub v (hout v (by simp [spelled_cons, Edit.symbol?]))
        have hcount' : consumptions es = x.length := by
          simpa [consumptions_cons, Edit.consumes] using hcount
        obtain ⟨ms, hrun, hread, hes⟩ := exists_run hV hu hl hr (subKey args.sizes c u v) rest x es
          (target_isKey hsz hc hmem) (hpend _ rfl) hcount'
          fun s hs => hout s (by simp [spelled_cons, hs])
        exact ⟨.sub v :: ms, .step hmem hrun, hread, by rw [← hes]; rfl⟩
    | .del :: es =>
      match x with
      | [] => simp [consumptions_cons, Edit.consumes] at hcount
      | u :: x =>
        obtain ⟨-, hmem, hpend⟩ := consume_mem_moves hV hr hb h
        have hcount' : consumptions es = x.length := by
          simpa [consumptions_cons, Edit.consumes] using hcount
        obtain ⟨ms, hrun, hread, hes⟩ := exists_run hV hu hl hr (delKey args.sizes c u) rest x es
          (target_isKey hsz hc hmem) (hpend _ rfl) hcount'
          fun s hs => hout s (by simp [spelled_cons, hs])
        exact ⟨.del :: ms, .step hmem hrun, hread, by rw [← hes]; rfl⟩
  · have hlt := length_urc_lt hu hl hc hb
    match rest with
    | [] =>
      have := congrArg List.length h.2
      simp [padding] at this
      omega
    | v :: rest =>
      obtain ⟨hmem, hpend⟩ := abs_mem_moves hV hr hb hlt h
      obtain ⟨ms, hrun, hread, hes⟩ := exists_run hV hu hl hr (absKey args.sizes c v) rest x es
        (target_isKey hsz hc hmem) hpend hcount hout
      exact ⟨.abs v :: ms, .step hmem hrun, by rw [← hread]; rfl, hes⟩
termination_by es.length + rest.length

end StochasticEdit.Generator
