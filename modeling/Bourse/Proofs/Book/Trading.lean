import Bourse.Book.Matching
import Bourse.Proofs.Book.Querying

/-!
# Trading

A taker on its way through a book makes the trades that it would make in the plain book with the
same orders. While it trades at one price that level is on loan: `Sweep.Loan` says what holds of
the level and of everything else then, one exchange keeps it, and so does the whole level.
-/

namespace Bourse.Book

namespace Sweep

/-- The same taker in the plain book. -/
def plain (s : Sweep) (es : List Entry) : Plain.Sweep where
  book := s.book.plain es
  taker := s.taker
  trades := s.trades.toList

/-- The best level of the other side, within the taker's limit, is on loan. -/
structure Loan (s : Sweep) (level : Level) (rank : Int) (es : List Entry) : Prop where
  stocked : s.book.Stocked es
  positive : ∀ e ∈ es, 0 < e.2.qty
  queued : level.Holds s.book.pool (queue s.taker.side.opposite rank es)
  price : s.taker.side.opposite.rank level.price = rank
  best : ∀ e ∈ es, e.2.side = s.taker.side.opposite → rank ≤ e.2.rank
  accepts : s.taker.side.accepts s.taker.price level.price

/-- What the loan does not concern stays as it is, and the plain book comes to the same end. -/
structure Onward (rank : Int) (s t : Sweep) (es es' : List Entry) : Prop where
  frame : Frame s.taker.side.opposite rank s.book.pool t.book.pool es es'
  ladder : ∀ side, t.book.ladder side = s.book.ladder side
  side : t.taker.side = s.taker.side
  run : (t.plain es').run = (s.plain es).run

variable {s t u : Sweep} {level : Level} {rank : Int} {es es' es'' pre post : List Entry}
  {slot : Slot} {maker : Order} {qty : Qty}

theorem Onward.refl : Onward rank s s es es :=
  ⟨.refl, fun _ => rfl, rfl, rfl⟩

theorem Onward.trans (h : Onward rank s t es es') (h' : Onward rank t u es' es'') :
    Onward rank s u es es'' where
  frame := h.frame.trans (h.side ▸ h'.frame)
  ladder side := (h'.ladder side).trans (h.ladder side)
  side := h'.side.trans h.side
  run := h'.run.trans h.run

/-! ## One trade -/

/-- The quantity of a trade is all of the taker's, or all of the maker's. -/
theorem qty_spec {a b : Qty} (ha : 0 < a) (hb : 0 < b) (hq : qty = min a b) :
    0 < qty ∧ qty ≤ a ∧ qty ≤ b ∧ (qty = a ∨ b ≤ qty) := by
  rw [Qty.min_def] at hq
  grind

/-- The maker of the next trade heads the queue of the level on loan. -/
theorem Loan.head (h : s.Loan level rank es) (hl : level.head = some slot) :
    ∃ pre maker post, es = pre ++ (slot, maker) :: post ∧
      queue s.taker.side.opposite rank pre = [] ∧ maker.side = s.taker.side.opposite ∧
      maker.rank = rank := by
  have hhead := h.queued.head
  rw [hl] at hhead
  obtain ⟨rest, hrest⟩ := List.head?_eq_some_iff.1 hhead.symm
  obtain ⟨e, q, hq, rfl, -⟩ := List.map_eq_cons_iff.1 hrest
  obtain ⟨pre, post, rfl, hpre, he, -⟩ := List.filter_eq_cons_iff.1 hq
  obtain ⟨hside, hrank⟩ : e.2.side = s.taker.side.opposite ∧ e.2.rank = rank := by simpa using he
  exact ⟨pre, e.2, post, rfl, List.filter_eq_nil_iff.2 (by simpa using hpre), hside, hrank⟩

/-- The plain book picks the same maker. -/
theorem Loan.first? (h : s.Loan level rank (pre ++ (slot, maker) :: post))
    (hpre : queue s.taker.side.opposite rank pre = [])
    (hm : maker.side = s.taker.side.opposite ∧ maker.rank = rank) :
    Plain.first? ((s.book.plain (pre ++ (slot, maker) :: post)).opposing s.taker) =
      some maker := by
  have hprice : maker.price = level.price := by
    refine maker.side.rank_injective ?_
    rw [hm.1, h.price, ← hm.2, ← hm.1]
    rfl
  have hbest (o : Order) (ho : o ∈ orders (pre ++ (slot, maker) :: post))
      (hs : o.side = s.taker.side.opposite) : maker.rank ≤ o.rank := by
    obtain ⟨e, he, rfl⟩ := List.mem_map.1 ho
    rw [hm.2]
    exact h.best e he hs
  rw [Plain.opposing, Book.plain, orders_append, orders_cons, List.filter_append,
    List.filter_cons_of_pos (by simp [hm.1, hprice, h.accepts])]
  refine Plain.first?_eq_some (fun o ho => ?_) fun o ho => ?_
  · obtain ⟨hmem, hopp⟩ := List.mem_filter.1 ho
    simp only [Bool.and_eq_true, decide_eq_true_eq] at hopp
    refine Int.lt_iff_le_and_ne.2 ⟨hbest o (by simp [hmem]) hopp.1, fun heq => ?_⟩
    obtain ⟨e, he, rfl⟩ := List.mem_map.1 hmem
    have hq : e ∈ queue s.taker.side.opposite rank pre :=
      mem_queue.2 ⟨he, hopp.1, heq.symm.trans hm.2⟩
    rw [hpre] at hq
    cases hq
  · obtain ⟨hmem, hopp⟩ := List.mem_filter.1 ho
    simp only [Bool.and_eq_true, decide_eq_true_eq] at hopp
    exact hbest o (by simp [hmem]) hopp.1

/-- The next trade in the plain book. -/
theorem Loan.step? (h : s.Loan level rank (pre ++ (slot, maker) :: post))
    (hpre : queue s.taker.side.opposite rank pre = [])
    (hm : maker.side = s.taker.side.opposite ∧ maker.rank = rank) (hs : ¬ s.taker.isFilled)
    (hq : qty = min s.taker.qty maker.qty) :
    (s.plain (pre ++ (slot, maker) :: post)).step? =
      some {
        book := { bound := s.book.pool.limit, resting :=
          if maker.qty ≤ qty then orders (pre ++ post)
          else orders (pre ++ (slot, maker.fill qty) :: post) }
        taker := s.taker.fill qty
        trades := s.trades.toList ++
          [{ maker := maker.id, taker := s.taker.id, price := level.price, qty }] } := by
  have hpos : 0 < maker.qty := h.positive (slot, maker) (by simp)
  have hs' : ¬ s.taker.qty ≤ 0 := by simpa [Order.isFilled] using hs
  obtain ⟨hq0, hqt, hqm, -⟩ := qty_spec (by grind) hpos hq
  have hprice : maker.price = level.price := by
    refine maker.side.rank_injective ?_
    rw [hm.1, h.price, ← hm.2, ← hm.1]
    rfl
  have hne (m : Order) (hmem : m ∈ orders pre ++ orders post) : m.id ≠ maker.id := by
    rw [← orders_append] at hmem
    obtain ⟨e, he, rfl⟩ := List.mem_map.1 hmem
    exact ne_of_nodup_map h.stocked.distinct e he
  have hfirst := h.first? hpre hm
  rw [Plain.Sweep.step?, if_neg (show ¬ (s.plain _).taker.qty ≤ 0 from hs')]
  show (Plain.first? ((s.book.plain _).opposing s.taker)).map _ = _
  rw [hfirst, Option.map_some, Order.fill_eq hq0 hqt, Order.fill_eq hq0 hqm, ← hprice, hq]
  simp only [Sweep.plain, Book.plain, orders_append, orders_cons, Plain.deduct_around hne]

/-- A step in the plain book does not change where it ends. -/
theorem run_of_step? {p p' : Plain.Sweep} (h : p.step? = some p') : p'.run = p.run := by
  rw [Plain.Sweep.run.eq_def p]
  split
  · next hn =>
    rw [h] at hn
    cases hn
  · next q hq =>
    rw [h] at hq
    obtain rfl := Option.some.inj hq
    rfl

/-- An exchange concerns the order of the maker and the total of its level. -/
theorem Loan.exchange (h : s.Loan level rank (pre ++ (slot, maker) :: post))
    (hm : maker.side = s.taker.side.opposite ∧ maker.rank = rank) (hq : 0 < qty)
    (hle : qty ≤ maker.qty) :
    (s.exchange level slot maker qty).1.book.Stocked (pre ++ (slot, maker.fill qty) :: post) ∧
    (s.exchange level slot maker qty).2.Holds (s.exchange level slot maker qty).1.book.pool
      (queue s.taker.side.opposite rank (pre ++ (slot, maker.fill qty) :: post)) ∧
    Frame s.taker.side.opposite rank s.book.pool (s.exchange level slot maker qty).1.book.pool
      (pre ++ (slot, maker) :: post) (pre ++ (slot, maker.fill qty) :: post) := by
  have hm' : (maker.fill qty).side = s.taker.side.opposite ∧ (maker.fill qty).rank = rank := hm
  refine ⟨h.stocked.replace (h.stocked.pool.modify _) rfl, ?_, fun side' rank' hne => ?_,
    fun e _ _ => rfl⟩
  · have hl := h.queued
    rw [queue_around hm] at hl
    rw [queue_around hm']
    have hslots : slots (queue s.taker.side.opposite rank pre ++
        (slot, maker.fill qty) :: queue s.taker.side.opposite rank post) =
        slots (queue s.taker.side.opposite rank pre ++
          (slot, maker) :: queue s.taker.side.opposite rank post) := by
      simp only [slots_append, slots_cons]
    refine ⟨?_, ?_, ?_, ?_, ?_⟩
    · rw [hslots]
      exact hl.head
    · rw [hslots]
      exact hl.tail
    · show level.orders = _
      rw [hl.count]
      simp
    · show level.total - qty = _
      have hlots (a b : Int) : a + (maker.qty.toInt - qty.toInt + b) =
          a + (maker.qty.toInt + b) - qty.toInt := by
        omega
      rw [hl.total, Order.fill_eq hq hle, ← Int64.ofInt_toInt qty, ← Int64.ofInt_sub]
      simp only [orders_append, orders_cons, Order.lots_append, Order.lots, Int64.ofInt_toInt,
        Qty.toInt_sub hq hle, hlots]
    · rw [hslots]
      exact hl.linked.congr fun _ _ => rfl
  · have hneg : ¬ (maker.side = side' ∧ maker.rank = rank') := by
      rintro ⟨rfl, rfl⟩
      exact hne ⟨hm.1, hm.2⟩
    have hneg' : ¬ ((maker.fill qty).side = side' ∧ (maker.fill qty).rank = rank') := hneg
    rw [queue_append, queue_append, queue_cons_of_neg hneg, queue_cons_of_neg hneg']

/-- A maker that is left with something keeps its place, and the taker is filled. -/
theorem Loan.part (h : s.Loan level rank (pre ++ (slot, maker) :: post))
    (hpre : queue s.taker.side.opposite rank pre = [])
    (hm : maker.side = s.taker.side.opposite ∧ maker.rank = rank) (hs : ¬ s.taker.isFilled)
    (hq : qty = min s.taker.qty maker.qty) (hf : ¬ (maker.fill qty).isFilled) :
    (s.exchange level slot maker qty).1.Loan (s.exchange level slot maker qty).2 rank
        (pre ++ (slot, maker.fill qty) :: post) ∧
      Onward rank s (s.exchange level slot maker qty).1 (pre ++ (slot, maker) :: post)
        (pre ++ (slot, maker.fill qty) :: post) ∧
      (s.exchange level slot maker qty).1.taker.isFilled := by
  have hpos : 0 < maker.qty := h.positive (slot, maker) (by simp)
  have hs' : ¬ s.taker.qty ≤ 0 := by simpa [Order.isFilled] using hs
  have hf' : ¬ (maker.fill qty).qty ≤ 0 := by simpa [Order.isFilled] using hf
  obtain ⟨hq0, hqt, hqm, hall⟩ := qty_spec (by grind) hpos hq
  obtain ⟨hst, hlevel, hframe⟩ := h.exchange hm hq0 hqm
  rw [Order.fill_eq hq0 hqm] at hf'
  have hlt : ¬ maker.qty ≤ qty := by
    intro hle
    apply hf'
    show maker.qty - qty ≤ 0
    grind
  have hstep := h.step? hpre hm hs hq
  rw [if_neg hlt] at hstep
  refine ⟨⟨hst, ?_, hlevel, h.price, ?_, h.accepts⟩, ⟨hframe, fun side => ?_, rfl, ?_⟩, ?_⟩
  · intro e he
    rcases List.mem_append.1 he with he | he
    · exact h.positive e (List.mem_append_left _ he)
    · rcases List.mem_cons.1 he with rfl | he
      · show 0 < (maker.fill qty).qty
        rw [Order.fill_eq hq0 hqm]
        show 0 < maker.qty - qty
        grind
      · exact h.positive e (List.mem_append_right _ (List.mem_cons_of_mem _ he))
  · intro e he hside
    rcases List.mem_append.1 he with he | he
    · exact h.best e (List.mem_append_left _ he) hside
    · rcases List.mem_cons.1 he with rfl | he
      · exact h.best (slot, maker) (by simp) hside
      · exact h.best e (List.mem_append_right _ (List.mem_cons_of_mem _ he)) hside
  · cases side <;> rfl
  · refine run_of_step? (hstep.trans (congrArg some ?_))
    simp [Sweep.plain, Book.plain, Sweep.exchange, Pool.modify]
  · rcases hall with heq | hle
    · show decide ((s.taker.fill qty).qty ≤ 0)
      rw [Order.fill_eq hq0 hqt, heq]
      simp
    · exact absurd hle hlt

/-- A maker that is left with nothing leaves the book. -/
theorem Loan.full (h : s.Loan level rank (pre ++ (slot, maker) :: post))
    (hpre : queue s.taker.side.opposite rank pre = [])
    (hm : maker.side = s.taker.side.opposite ∧ maker.rank = rank) (hs : ¬ s.taker.isFilled)
    (hq : qty = min s.taker.qty maker.qty) (hf : (maker.fill qty).isFilled) :
    let t := s.exchange level slot maker qty
    let u := t.1.retire t.2 slot maker.id
    u.1.Loan u.2 rank (pre ++ post) ∧
      Onward rank s u.1 (pre ++ (slot, maker) :: post) (pre ++ post) := by
  intro t u
  have hpos : 0 < maker.qty := h.positive (slot, maker) (by simp)
  have hs' : ¬ s.taker.qty ≤ 0 := by simpa [Order.isFilled] using hs
  have hf' : (maker.fill qty).qty ≤ 0 := by simpa [Order.isFilled] using hf
  obtain ⟨hq0, hqt, hqm, -⟩ := qty_spec (by grind) hpos hq
  obtain ⟨hst, hlevel, hframe⟩ := h.exchange hm hq0 hqm
  rw [Order.fill_eq hq0 hqm] at hf'
  have hle : maker.qty ≤ qty := by
    have hsub : maker.qty - qty ≤ 0 := hf'
    grind
  have hstep := h.step? hpre hm hs hq
  rw [if_pos hle] at hstep
  have hm' : (maker.fill qty).side = s.taker.side.opposite ∧ (maker.fill qty).rank = rank := hm
  have hmem {e : Entry} (he : e ∈ pre ++ post) : e ∈ pre ++ (slot, maker) :: post := by
    rcases List.mem_append.1 he with he | he <;> simp [he]
  have hlim : u.1.book.pool.limit = s.book.pool.limit := limit_remove t.2 t.1.book.pool slot
  refine ⟨⟨?_, ?_, ?_, h.price, ?_, h.accepts⟩, ⟨?_, fun side => ?_, rfl, ?_⟩⟩
  · exact hst.remove (hst.pool.remove t.2)
  · exact fun e he => h.positive e (hmem he)
  · exact hlevel.remove hst.pool hm'
  · exact fun e he => h.best e (hmem he)
  · exact hframe.trans (.remove hlevel hst.pool hm')
  · cases side <;> rfl
  · refine run_of_step? (hstep.trans (congrArg some ?_))
    simp only [Sweep.plain, Book.plain, hlim]
    simp [u, t, Sweep.retire, Sweep.exchange]

/-! ## The level on loan -/

/-- Trading with a level ends with the level used up, or with the taker filled. -/
theorem Loan.consume (h : s.Loan level rank es) :
    ∃ es', (s.consume level).1.Loan (s.consume level).2 rank es' ∧
      Onward rank s (s.consume level).1 es es' ∧
      (¬ (s.consume level).2.isEmpty → (s.consume level).1.taker.isFilled) := by
  fun_induction Sweep.consume s level generalizing es with
  | case1 s level hf => exact ⟨es, h, .refl, fun _ => hf⟩
  | case2 s level hs hnone =>
    refine ⟨es, h, .refl, fun he => ?_⟩
    have hhead := h.queued.head
    rw [hnone] at hhead
    have hnil := List.map_eq_nil_iff.1 (List.head?_eq_none_iff.1 hhead.symm)
    exact absurd (h.queued.isEmpty.2 hnil) he
  | case3 s level hs slot hhead hnone =>
    obtain ⟨pre, maker, post, rfl, -⟩ := h.head hhead
    have ho := (h.stocked.pool.orders slot maker).2 (by simp)
    rw [hnone] at ho
    cases ho
  | case4 s level hs slot hhead maker ho qty t hf u =>
    rename_i ih
    obtain ⟨pre, maker', post, rfl, hpre, hm⟩ := h.head hhead
    obtain rfl : maker = maker' := by
      rw [(h.stocked.pool.orders slot maker').2 (by simp)] at ho
      exact (Option.some.inj ho).symm
    obtain ⟨hloan, honward⟩ := h.full hpre hm hs rfl hf
    obtain ⟨es', hloan', honward', hend⟩ := ih hloan
    exact ⟨es', hloan', honward.trans honward', hend⟩
  | case5 s level hs slot hhead maker ho qty t =>
    rename_i hf
    obtain ⟨pre, maker', post, rfl, hpre, hm⟩ := h.head hhead
    obtain rfl : maker = maker' := by
      rw [(h.stocked.pool.orders slot maker').2 (by simp)] at ho
      exact (Option.some.inj ho).symm
    obtain ⟨hloan, honward, hfilled⟩ := h.part hpre hm hs rfl hf
    exact ⟨_, hloan, honward, fun _ => hfilled⟩

/-! ## The whole book -/

/-- There is nothing to trade with for a filled taker. -/
theorem run_of_isFilled (hs : s.taker.isFilled) : (s.plain es).run = s.plain es := by
  have hnone : (s.plain es).step? = none := by
    have hq : (s.plain es).taker.qty ≤ 0 := of_decide_eq_true hs
    rw [Plain.Sweep.step?, if_pos hq]
  rw [Plain.Sweep.run.eq_def, hnone]

/-- There is nothing to trade with if no order of the other side is within the limit. -/
theorem run_of_not_accepts (h : ∀ e ∈ es, e.2.side = s.taker.side.opposite →
    ¬ s.taker.side.accepts s.taker.price e.2.price) : (s.plain es).run = s.plain es := by
  have hopp : (s.plain es).book.opposing (s.plain es).taker = [] := by
    refine List.filter_eq_nil_iff.2 fun o ho => ?_
    obtain ⟨e, he, rfl⟩ := List.mem_map.1 ho
    rw [Bool.and_eq_true, decide_eq_true_eq]
    exact fun hopp => h e he hopp.1 hopp.2
  have hnone : (s.plain es).step? = none := by
    unfold Plain.Sweep.step?
    rw [hopp]
    split
    · rfl
    · rfl
  rw [Plain.Sweep.run.eq_def, hnone]

/-- A price is within the limit if a worse one is. -/
theorem accepts_of_rank_le {side : Side} {limit p q : Price}
    (hle : side.opposite.rank p ≤ side.opposite.rank q) (h : side.accepts limit q) :
    side.accepts limit p := by
  cases side with
  | buy =>
    simp only [Side.accepts, Side.rank, Side.opposite, decide_eq_true_eq,
      Int64.le_iff_toInt_le] at h hle ⊢
    omega
  | sell =>
    simp only [Side.accepts, Side.rank, Side.opposite, decide_eq_true_eq,
      Int64.le_iff_toInt_le] at h hle ⊢
    omega

/-- The ladders play no part in the plain book. -/
theorem plain_setLadder (s : Sweep) (side : Side) (l : Ladder) (es : List Entry) :
    Sweep.plain { s with book := s.book.setLadder side l } es = s.plain es := by
  simp [Sweep.plain, Book.plain]

/-- A level that a search has found, and that the taker accepts, goes on loan. -/
theorem loan_of_search {side : Side} (hside : side = s.taker.side.opposite)
    (h : s.book.Holds es) (hf : (s.book.ladder side).search.2 = some (rank, level))
    (ha : s.taker.side.accepts s.taker.price level.price) :
    Loan { s with book := s.book.setLadder side (s.book.ladder side).search.1 } level rank es := by
  obtain ⟨-, -, hsome⟩ := (h.ladder side).search
  obtain ⟨-, hl, hbest⟩ := hsome rank level hf
  obtain ⟨hlevel, hprice⟩ := (h.ladder side).level rank level hl
  subst hside
  refine ⟨(h.search _).toStocked, h.positive, ?_, hprice, hbest, ha⟩
  exact hlevel.congr fun t _ => by rw [pool_setLadder]

/-- What is left of a level goes back to its place. -/
theorem holds_of_onward {side : Side} (hside : side = s.taker.side.opposite)
    (h : s.book.Holds es) (ho : Onward rank s t es es') (hl : t.Loan level rank es')
    (hc : rank ∈ (s.book.ladder side).candidates) :
    (t.book.setLadder side ((s.book.ladder side).put rank level)).Holds es' := by
  have hopp : t.taker.side.opposite = side := by rw [ho.side, hside]
  have hframe : Frame side rank s.book.pool t.book.pool es es' := hside ▸ ho.frame
  have hput := (h.ladder side).put hframe (hopp ▸ hl.queued) (hopp ▸ hl.price) hc
  refine ⟨⟨?_, ?_, hl.stocked.distinct⟩, hl.positive, fun side' => ?_⟩
  · rw [pool_setLadder]
    exact hl.stocked.pool
  · rw [index_setLadder]
    exact hl.stocked.index
  · have hset := h.setLadder hframe hput side'
    rw [ladder_setLadder] at hset ⊢
    rw [pool_setLadder, ho.ladder side']
    exact hset

/-- Finding the best level, trading with it and putting it back: the plain book comes to the same
end from before and from after. -/
theorem holds_round {side : Side} (hside : side = s.taker.side.opposite) (h : s.book.Holds es)
    {found : Ladder × Option (Int × Level)} (hfound : found = (s.book.ladder side).search)
    (hf : found.2 = some (rank, level))
    (ha : s.taker.side.accepts s.taker.price level.price) {t : Sweep × Level}
    (ht : t = consume { s with book := s.book.setLadder side found.1 } level) :
    t.1.taker.side = s.taker.side ∧ (¬ t.2.isEmpty → t.1.taker.isFilled) ∧
      ∃ es', (t.1.book.setLadder side (found.1.put rank t.2)).Holds es' ∧
        (t.1.plain es').run = (s.plain es).run := by
  subst hfound ht
  obtain ⟨es', hloan, honward, hend⟩ := (loan_of_search hside h hf ha).consume
  refine ⟨honward.side, hend, es', ?_, ?_⟩
  · have hc := (((h.ladder side).search).2.2 rank level hf).1
    have hladder : (s.book.setLadder side (s.book.ladder side).search.1).ladder side =
        (s.book.ladder side).search.1 := by
      rw [ladder_setLadder, if_pos rfl]
    have hholds := holds_of_onward
      (s := { s with book := s.book.setLadder side (s.book.ladder side).search.1 })
      hside (h.search side) honward hloan (hladder.symm ▸ hc)
    rw [hladder] at hholds
    exact hholds
  · exact honward.run.trans (congrArg Plain.Sweep.run (plain_setLadder s side _ es))

/-- Trading in a book is trading in the plain book with the same orders. -/
theorem run_plain {side : Side} (hside : side = s.taker.side.opposite) (h : s.book.Holds es) :
    ∃ es', (Sweep.run side s).book.Holds es' ∧
      (Sweep.run side s).plain es' = (s.plain es).run := by
  fun_induction Sweep.run side s generalizing es with
  | case1 s hs => exact ⟨es, h, (run_of_isFilled hs).symm⟩
  | case2 s hs found book =>
    rename_i hnone
    refine ⟨es, h.search side, ?_⟩
    rw [plain_setLadder, run_of_not_accepts]
    intro e he hopp
    exact absurd (hopp.trans hside.symm) (((h.ladder side).search).2.1 hnone e he)
  | case3 s hs found book rank level hf ha t book' hempty =>
    rename_i ih
    obtain ⟨htaker, -, es', hholds, hrun⟩ := holds_round hside h rfl hf ha rfl
    obtain ⟨es'', hholds', hplain⟩ := ih (hside.trans (congrArg Side.opposite htaker.symm)) hholds
    refine ⟨es'', hholds', hplain.trans ?_⟩
    rw [← hrun]
    exact congrArg Plain.Sweep.run (plain_setLadder t.1 side _ es')
  | case4 s hs found book rank level hf ha t book' hne =>
    -- The level still has orders, so the taker is filled and the plain book stops as well.
    obtain ⟨-, hend, es', hholds, hrun⟩ := holds_round hside h rfl hf ha rfl
    refine ⟨es', hholds, (plain_setLadder t.1 side _ es').trans ?_⟩
    rw [← hrun, run_of_isFilled (hend hne)]
  | case5 s hs found book rank level hf =>
    rename_i ha
    obtain ⟨-, hl, hbest⟩ := ((h.ladder side).search).2.2 rank level hf
    have hprice := ((h.ladder side).level rank level hl).2
    refine ⟨es, h.search side, ?_⟩
    rw [plain_setLadder, run_of_not_accepts]
    -- No order is better than the best level, which is beyond the limit.
    intro e he hopp hacc
    refine ha (accepts_of_rank_le ?_ hacc)
    rw [← hside, hprice]
    obtain rfl : e.2.side = side := hopp.trans hside.symm
    exact hbest e he rfl

end Sweep

variable {b : Book} {f : Plain}

/-- A trade leaves the book with what the plain book is left with, and makes the same trades. -/
theorem Shows.trade (h : b.Shows f) (taker : Order) :
    (b.trade taker).book.Shows (f.trade taker).book ∧
      (b.trade taker).taker = (f.trade taker).taker ∧
      (b.trade taker).trades.toList = (f.trade taker).trades ∧
      (b.trade taker).rest = (f.trade taker).rest := by
  obtain ⟨es, hes, rfl⟩ := h
  obtain ⟨es', hes', hplain⟩ :=
    Sweep.run_plain (s := { book := b, taker }) rfl hes
  have hrun : (b.trade taker).plain es' = (b.plain es).trade taker := hplain
  rw [← hrun]
  refine ⟨⟨es', hes', rfl⟩, rfl, rfl, ?_⟩
  rw [Sweep.rest, Plain.Sweep.rest, Qty.max_def]
  show (if decide ((b.trade taker).taker.qty ≤ 0) then 0 else (b.trade taker).taker.qty) =
    if (b.trade taker).taker.qty ≤ 0 then 0 else (b.trade taker).taker.qty
  by_cases hq : (b.trade taker).taker.qty ≤ 0
  · rw [if_pos hq, if_pos (decide_eq_true hq)]
  · rw [if_neg hq, if_neg (by simpa using hq)]

theorem Shows.submit (h : b.Shows f) (taker : Order) :
    (b.submit taker).1.Shows (f.submit taker).1 ∧
      (b.submit taker).2.1.toList = (f.submit taker).2.1 ∧
      (b.submit taker).2.2 = (f.submit taker).2.2 := by
  obtain ⟨hshows, htaker, htrades, -⟩ := h.trade taker
  have hadd := hshows.add? (b.trade taker).taker
  rw [Book.submit, Plain.submit, ← htaker]
  revert hadd
  cases (b.trade taker).book.add? (b.trade taker).taker with
  | none =>
    cases (f.trade taker).book.add? (b.trade taker).taker with
    | none => exact fun _ => ⟨hshows, htrades, rfl⟩
    | some f' => exact fun hrel => by cases hrel
  | some b' =>
    cases (f.trade taker).book.add? (b.trade taker).taker with
    | none => exact fun hrel => by cases hrel
    | some f' =>
      intro hrel
      cases hrel with
      | some hshows' => exact ⟨hshows', htrades, rfl⟩

end Bourse.Book
