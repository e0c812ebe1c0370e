import Mathlib.Data.List.Perm.Subperm
import Bourse.Proofs.Book.Crossing

/-!
# How a taker finishes

A taker goes on and on until it is filled or finds no level within its limit, and never asks
whether it is getting anywhere. That it comes to an end rests on the parts of the book agreeing:
`Dealing.ends_run` counts the steps. On the way it leaves a maker only when that one is used up or
the taker itself is filled, and it meets the better prices first: `Plain.Consumes` says what holds
at any point, one trade keeps it, and `taker_finishes` reads off what is so at the end.
-/

namespace Bourse

namespace Trade

/-- An order that is the maker of one trade only has given the lots of that trade. -/
theorem given_of_mem {ts : List Trade} {t : Trade} (hd : (ts.map (·.maker)).Nodup) (ht : t ∈ ts) :
    given t.maker ts = t.qty.toInt := by
  obtain ⟨pre, post, rfl⟩ := List.append_of_mem ht
  have hne := ne_of_nodup_map hd
  have hpre : pre.filter (·.maker = t.maker) = [] := by
    refine List.filter_eq_nil_iff.2 fun u hu => ?_
    simpa using hne u (List.mem_append_left _ hu)
  have hpost : post.filter (·.maker = t.maker) = [] := by
    refine List.filter_eq_nil_iff.2 fun u hu => ?_
    simpa using hne u (List.mem_append_right _ hu)
  simp [given, List.filter_append, hpre, hpost]

end Trade

namespace Plain

variable {f b : Plain} {o m maker : Order} {id : OrderId} {qty : Qty}

/-- An id that no order has comes to none by a deduction. -/
theorem contains_deduct (h : b.contains id = false) (id' : OrderId) (qty : Qty) :
    (b.deduct id' qty).contains id = false := by
  rw [contains, List.any_eq_false] at h ⊢
  intro m hm hid
  have hmem := (ids_deduct_sublist b id' qty).subset (List.mem_map_of_mem hm)
  obtain ⟨o, ho, hoid⟩ := List.mem_map.1 hmem
  exact h o ho (by simpa [hoid] using hid)

/-- An order from which all is deducted is gone. -/
theorem Tidy.contains_deduct_self (h : b.Tidy) (hm : maker ∈ b.resting) (hle : maker.qty ≤ qty) :
    (b.deduct maker.id qty).contains maker.id = false := by
  rw [contains_eq_isSome, h.order?_deduct hm, if_pos rfl, if_pos hle]
  rfl

/-- What holds besides of a taker on its way: it goes on to other makers only when it has used up
those that it met, and it meets the better ones first. -/
structure Consumes (f : Plain) (o : Order) (s : Sweep) : Prop extends f.Passes o s where
  distinct : (s.trades.map (·.maker)).Nodup
  /-- Only the last maker may be left with something. -/
  gone : ∀ t ∈ s.trades.dropLast, s.book.contains t.maker = false
  /-- If it is, then the taker wants nothing more. -/
  last : 0 < s.taker.qty → ∀ t ∈ s.trades, s.book.contains t.maker = false
  onward : s.trades.Pairwise fun t u =>
    o.side.opposite.rank t.price ≤ o.side.opposite.rank u.price
  /-- Nobody is left who is better than those it met. -/
  ahead : ∀ t ∈ s.trades, ∀ m ∈ s.book.opposing o, o.side.opposite.rank t.price ≤ m.rank

theorem Consumes.refl (h : f.Tidy) (o : Order) : f.Consumes o { book := f, taker := o } where
  toPasses := .refl h o
  distinct := .nil
  gone t ht := by cases ht
  last _ t ht := by cases ht
  onward := .nil
  ahead t ht := by cases ht

theorem Passes.opposing_taker {s : Sweep} (h : f.Passes o s) (b : Plain) :
    b.opposing s.taker = b.opposing o := by
  rw [h.taker]
  rfl

/-- One trade on the way. -/
theorem Consumes.step {s t : Sweep} (h : f.Consumes o s) (hf : f.Tidy) (hstep : s.step? = some t) :
    f.Consumes o t := by
  have hpasses := h.toPasses.step hf hstep
  obtain ⟨hpos, maker, hfirst, rfl⟩ := Sweep.first?_of_step? hstep
  rw [h.opposing_taker] at hfirst
  obtain ⟨hopp, hbest⟩ := le_of_first? hfirst
  obtain ⟨hmem, hside, hacc⟩ := mem_opposing.1 hopp
  have hrank : o.side.opposite.rank maker.price = maker.rank := by rw [Order.rank, hside]
  have hmaker := h.tidy.positive maker hmem
  generalize hqty : min s.taker.qty maker.qty = qty at hpasses ⊢
  obtain ⟨hq, hqt, hqm, hall⟩ := Book.Sweep.qty_spec hpos hmaker hqty.symm
  have hgone := h.last hpos
  refine ⟨hpasses, ?_, ?_, ?_, ?_, ?_⟩
  · have hnew : maker.id ∉ s.trades.map (·.maker) := by
      intro hnamed
      obtain ⟨t, ht, hid⟩ := List.mem_map.1 hnamed
      have hout := hgone t ht
      rw [hid, contains_eq_isSome, h.tidy.order?_eq_some hmem] at hout
      cases hout
    rw [List.map_append, List.nodup_append]
    refine ⟨h.distinct, List.nodup_singleton _, ?_⟩
    rintro a ha b hb rfl
    obtain rfl : a = maker.id := by simpa using hb
    exact hnew ha
  · rw [List.dropLast_concat]
    exact fun t ht => contains_deduct (hgone t ht) _ _
  · intro hmore t ht
    rcases List.mem_append.1 ht with ht | ht
    · exact contains_deduct (hgone t ht) _ _
    · obtain rfl := List.mem_singleton.1 ht
      -- A taker that wants more has taken all that the maker had.
      refine h.tidy.contains_deduct_self hmem (hall.resolve_left fun heq => ?_)
      rw [heq] at hmore
      simp at hmore
  · refine List.pairwise_append.2 ⟨h.onward, List.pairwise_singleton _ _, fun t ht u hu => ?_⟩
    obtain rfl := List.mem_singleton.1 hu
    exact hrank ▸ h.ahead t ht maker hopp
  · intro t ht m hm
    obtain ⟨hm, hmside, hmacc⟩ := mem_opposing.1 hm
    obtain ⟨m', hm', hsame, -⟩ := mem_deduct hm
    have hopp' : m' ∈ s.book.opposing o := by
      rw [hsame] at hmside hmacc
      exact mem_opposing.2 ⟨hm', hmside, hmacc⟩
    have hrank' : m.rank = m'.rank := by rw [hsame, Order.rank, Order.rank]
    rw [hrank']
    rcases List.mem_append.1 ht with ht | ht
    · exact h.ahead t ht m' hopp'
    · obtain rfl := List.mem_singleton.1 ht
      exact hrank ▸ hbest m' hopp'

/-- The whole way of a taker. -/
theorem Tidy.consumes_trade (h : f.Tidy) (o : Order) : f.Consumes o (f.trade o) :=
  (Sweep.run_induct (fun _ _ hs hst => hs.step h hst) (Consumes.refl h o)).1

/-- The makers are orders that the taker could trade with at the beginning. -/
theorem Passes.maker_mem {s : Sweep} (h : f.Passes o s) {t : Trade} (ht : t ∈ s.trades) :
    ∃ m ∈ f.opposing o, m.id = t.maker := by
  obtain ⟨past, next, heq⟩ := List.append_of_mem ht
  have hfair := h.fair past t next heq
  obtain ⟨m, hm, hside, hprice, -⟩ := hfair.maker
  obtain ⟨hmem, hid⟩ := of_order?_eq_some hm
  exact ⟨m, mem_opposing.2 ⟨hmem, hside, hprice ▸ hfair.accepts⟩, hid⟩

/-- There are no more trades than orders that the taker could trade with. -/
theorem Consumes.length_trades_le {s : Sweep} (h : f.Consumes o s) :
    s.trades.length ≤ (f.opposing o).length := by
  have hsub : s.trades.map (·.maker) ⊆ (f.opposing o).map (·.id) := by
    intro id hid
    obtain ⟨t, ht, rfl⟩ := List.mem_map.1 hid
    obtain ⟨m, hm, hmid⟩ := h.maker_mem ht
    exact List.mem_map.2 ⟨m, hm, hmid⟩
  simpa using (List.subperm_of_subset h.distinct hsub).length_le

/-- A maker that is gone has given all that it had. -/
theorem Consumes.qty_of_gone {s : Sweep} (h : f.Consumes o s) {t : Trade} (ht : t ∈ s.trades)
    (hgone : s.book.contains t.maker = false) :
    ∃ m, f.order? t.maker = some m ∧ m.qty = t.qty := by
  obtain ⟨past, next, heq⟩ := List.append_of_mem ht
  obtain ⟨m, hm, -⟩ := (h.fair past t next heq).maker
  have hgiven := h.given t.maker
  rw [hm, order?_eq_none hgone, Trade.given_of_mem h.distinct ht] at hgiven
  simp only [Option.toList_some, Option.toList_none, Order.lots, Int.add_zero] at hgiven
  exact ⟨m, hm, Int64.toInt_inj.1 hgiven⟩

/-- The best of the orders that a taker could trade with has the best price of all on its side. -/
theorem best?_of_first? (h : first? (f.opposing o) = some maker) :
    f.best? o.side.opposite = some maker.price := by
  obtain ⟨hopp, hbest⟩ := le_of_first? h
  obtain ⟨hmem, hside, hacc⟩ := mem_opposing.1 hopp
  have hprice : maker.price ∈ f.prices o.side.opposite :=
    List.mem_map.2 ⟨maker, List.mem_filter.2 ⟨hmem, decide_eq_true hside⟩, rfl⟩
  have hle (q : Price) (hq : q ∈ f.prices o.side.opposite) :
      o.side.opposite.rank maker.price ≤ o.side.opposite.rank q := by
    obtain ⟨m, hm, rfl⟩ := List.mem_map.1 hq
    obtain ⟨hm, hmside⟩ := List.mem_filter.1 hm
    rw [decide_eq_true_eq] at hmside
    -- Who would be better than the maker would be within the limit as well.
    by_contra hlt
    have hacc' := Book.Sweep.accepts_of_rank_le (Int.le_of_lt (Int.not_le.1 hlt)) hacc
    have hrank := hbest m (mem_opposing.2 ⟨hm, hmside, hacc'⟩)
    rw [Order.rank, Order.rank, hside, hmside] at hrank
    exact hlt hrank
  refine find?_eq_some_of_unique hprice ?_ fun q hq hall => ?_
  · exact List.all_eq_true.2 fun q hq => leads_iff.2 (hle q hq)
  · have hle' := leads_iff.1 (List.all_eq_true.1 hall _ hprice)
    exact o.side.opposite.rank_injective (Int.le_antisymm hle' (hle q hq))

/-- The first trade is made at the best price. -/
theorem best?_of_head? {t : Trade} (h : (f.trade o).trades.head? = some t) :
    f.best? o.side.opposite = some t.price := by
  cases hstep : ({ book := f, taker := o } : Sweep).step? with
  | none =>
    rw [trade, run_of_none hstep] at h
    cases h
  | some s =>
    obtain ⟨-, maker, hfirst, rfl⟩ := Sweep.first?_of_step? hstep
    obtain ⟨later, hlater⟩ := Sweep.trades_prefix_run _
    rw [Book.Sweep.run_of_step? hstep] at hlater
    rw [trade, ← hlater] at h
    obtain rfl : _ = t := Option.some.inj h
    exact best?_of_first? hfirst

end Plain

/-- Going on, for as long as the last step says so, comes to an end with the given number of
steps. -/
inductive EndsIn {α : Type} (step : α → α × Bool) : α → Nat → α → Prop
  | stop {a b : α} (h : step a = (b, false)) : EndsIn step a 1 b
  | more {a b c : α} {n : Nat} (h : step a = (b, true)) (rest : EndsIn step b n c) :
    EndsIn step a (n + 1) c

namespace Book

/-- A taker at work: it looks for a level, or it has one, with its rank, on loan. -/
structure Dealing where
  sweep : Sweep
  loan : Option (Int × Level) := none

namespace Dealing

/-- The side that the taker trades with. -/
def side (d : Dealing) : Side :=
  d.sweep.taker.side.opposite

/-- Looks at the best candidate, and whether to go on. A candidate without a level is dropped. There
is nothing more to do if the taker is filled, or if there is no level within its limit. -/
def seek (d : Dealing) : Dealing × Bool :=
  if d.sweep.taker.isFilled then (d, false)
  else
    let ladder := d.sweep.book.ladder d.side
    match ladder.candidates.top? with
    | none => (d, false)
    | some rank =>
      match ladder.levels[rank]?.filter (!·.isEmpty) with
      | none =>
        let book := d.sweep.book.setLadder d.side
          { ladder with candidates := ladder.candidates.pop }
        ({ sweep := { d.sweep with book } }, true)
      | some level =>
        if d.sweep.taker.side.accepts d.sweep.taker.price level.price then
          ({ d with loan := some (rank, level) }, true)
        else (d, false)

/-- Puts a level back. -/
def settle (d : Dealing) (rank : Int) (level : Level) : Dealing where
  sweep :=
    { d.sweep with
      book := d.sweep.book.setLadder d.side ((d.sweep.book.ladder d.side).put rank level) }

/-- Trades with the order at the head of a level, or puts the level back if the taker is filled or
there is no order. Whether the taker got anywhere is not asked, neither here nor later. -/
def deal (d : Dealing) (rank : Int) (level : Level) : Dealing :=
  if d.sweep.taker.isFilled then d.settle rank level
  else
    match level.head with
    | none => d.settle rank level
    | some slot =>
      match d.sweep.book.pool.order? slot with
      | none => d.settle rank level
      | some maker =>
        let qty := min d.sweep.taker.qty maker.qty
        let t := d.sweep.exchange level slot maker qty
        if (maker.fill qty).isFilled then
          let u := t.1.retire t.2 slot maker.id
          { sweep := u.1, loan := some (rank, u.2) }
        else { sweep := t.1, loan := some (rank, t.2) }

/-- One step, and whether to go on. -/
def step (d : Dealing) : Dealing × Bool :=
  match d.loan with
  | none => d.seek
  | some (rank, level) => (d.deal rank level, true)

end Dealing

variable {s : Sweep} {level : Level} {rank : Int} {es : List Entry}

/-! ## What a step does -/

namespace Dealing

theorem step_of_filled (h : s.taker.isFilled) : step { sweep := s } = ({ sweep := s }, false) := by
  show seek _ = _
  rw [seek, if_pos h]

/-- There is no candidate. -/
theorem step_of_none (hs : ¬ s.taker.isFilled)
    (htop : (s.book.ladder s.taker.side.opposite).candidates.top? = none) :
    step { sweep := s } = ({ sweep := s }, false) := by
  show seek _ = _
  rw [seek, if_neg hs]
  dsimp only [Dealing.side]
  rw [htop]

/-- The best candidate has no level. -/
theorem step_of_stale (hs : ¬ s.taker.isFilled)
    (htop : (s.book.ladder s.taker.side.opposite).candidates.top? = some rank)
    (hlevel : (s.book.ladder s.taker.side.opposite).levels[rank]?.filter (!·.isEmpty) = none) :
    step { sweep := s } =
      ({ sweep :=
          { s with
            book := s.book.setLadder s.taker.side.opposite
              { s.book.ladder s.taker.side.opposite with
                candidates := (s.book.ladder s.taker.side.opposite).candidates.pop } } },
        true) := by
  show seek _ = _
  rw [seek, if_neg hs]
  dsimp only [Dealing.side]
  rw [htop]
  dsimp only
  rw [hlevel]

/-- The best level is taken on loan if it is within the limit. -/
theorem step_of_level (hs : ¬ s.taker.isFilled)
    (htop : (s.book.ladder s.taker.side.opposite).candidates.top? = some rank)
    (hlevel : (s.book.ladder s.taker.side.opposite).levels[rank]?.filter (!·.isEmpty) = some level) :
    step { sweep := s } =
      if s.taker.side.accepts s.taker.price level.price then
        ({ sweep := s, loan := some (rank, level) }, true)
      else ({ sweep := s }, false) := by
  show seek _ = _
  rw [seek, if_neg hs]
  dsimp only [Dealing.side]
  rw [htop]
  dsimp only
  rw [hlevel]

/-- The level on loan is put back when the taker is filled, or when it has no order to trade with. -/
theorem step_of_done
    (h : s.taker.isFilled ∨ ∀ slot, level.head = some slot → s.book.pool.order? slot = none) :
    step { sweep := s, loan := some (rank, level) } = (settle { sweep := s } rank level, true) := by
  show (deal _ rank level, true) = _
  rw [deal]
  by_cases hs : s.taker.isFilled
  · rw [if_pos hs]
    rfl
  · rw [if_neg hs]
    cases hhead : level.head with
    | none => rfl
    | some slot =>
      dsimp only
      rw [h.resolve_left hs slot hhead]
      rfl

/-- A trade with the order at the head of the level, which is removed if nothing is left of it. -/
theorem step_of_maker (hs : ¬ s.taker.isFilled) {slot : Slot} (hhead : level.head = some slot)
    {maker : Order} (hmaker : s.book.pool.order? slot = some maker) :
    step { sweep := s, loan := some (rank, level) } =
      let qty := min s.taker.qty maker.qty
      let t := s.exchange level slot maker qty
      (if (maker.fill qty).isFilled then
        { sweep := (t.1.retire t.2 slot maker.id).1
          loan := some (rank, (t.1.retire t.2 slot maker.id).2) }
      else { sweep := t.1, loan := some (rank, t.2) }, true) := by
  show (deal _ rank level, true) = _
  rw [deal, if_neg hs, hhead]
  dsimp only
  rw [hmaker]

end Dealing

/-! ## Going on to the end -/

theorem Ladder.size_pos {l : Ladder} (h : rank ∈ l.levels) : 0 < l.levels.size := by
  refine Nat.pos_of_ne_zero fun hzero => Std.TreeMap.not_mem_of_isEmpty ?_ h
  rw [Std.TreeMap.isEmpty_eq_size_eq_zero, hzero]
  rfl

theorem Ladder.mem_levels_of_search {l : Ladder} (h : l.search.2 = some (rank, level)) :
    rank ∈ l.levels := by
  rw [Std.TreeMap.mem_iff_isSome_getElem?, (Ladder.getElem?_of_search h).1]
  rfl

/-- A maker that is left with something has filled its taker. -/
theorem isFilled_of_outlasted {taker maker : Order} {qty : Qty} (ht : ¬ taker.isFilled)
    (hq : qty = min taker.qty maker.qty) (hf : ¬ (maker.fill qty).isFilled) :
    (taker.fill qty).isFilled := by
  have ht' : 0 < taker.qty := by simpa [Order.isFilled] using ht
  have hm : 0 < maker.qty := by
    by_contra hle
    apply hf
    have hle' : maker.qty ≤ 0 := Int64.not_lt.1 hle
    simp only [Order.isFilled, Order.fill, Order.available, Qty.max_def, Qty.min_def]
    grind
  obtain ⟨hq0, hqt, hqm, hall⟩ := Sweep.qty_spec ht' hm hq
  rw [Order.fill_eq hq0 hqm] at hf
  rw [Order.fill_eq hq0 hqt]
  rcases hall with heq | hle
  · simp [Order.isFilled, heq]
  · have heq := Int64.le_antisymm hqm hle
    exact absurd (by simp [Order.isFilled, heq]) hf

/-- Trading with a level changes the levels of neither side. -/
theorem Sweep.consume_ladder (s : Sweep) (level : Level) (side : Side) :
    (s.consume level).1.book.ladder side = s.book.ladder side ∧
      (s.consume level).1.taker.side = s.taker.side := by
  fun_induction Sweep.consume s level with
  | case1 => exact ⟨rfl, rfl⟩
  | case2 => exact ⟨rfl, rfl⟩
  | case3 => exact ⟨rfl, rfl⟩
  | case4 s level hs slot hhead maker ho qty t hf u =>
    rename_i ih
    refine ⟨ih.1.trans ?_, ih.2⟩
    cases side <;> rfl
  | case5 =>
    refine ⟨?_, rfl⟩
    cases side <;> rfl

/-- A level on loan is put back after one step for each trade with it. -/
theorem Dealing.ends_of_consume {n : Nat} {a : Dealing}
    (h : EndsIn step (settle { sweep := (s.consume level).1 } rank (s.consume level).2) n a) :
    ∃ k, k + s.trades.size = (s.consume level).1.trades.size + 1 ∧
      EndsIn step { sweep := s, loan := some (rank, level) } (n + k) a := by
  fun_induction Sweep.consume s level with
  | case1 s level hf => exact ⟨1, Nat.add_comm _ _, .more (step_of_done (Or.inl hf)) h⟩
  | case2 s level hs hnone =>
    refine ⟨1, Nat.add_comm _ _, .more (step_of_done (Or.inr fun slot hslot => ?_)) h⟩
    rw [hnone] at hslot
    cases hslot
  | case3 s level hs slot hhead hnone =>
    refine ⟨1, Nat.add_comm _ _, .more (step_of_done (Or.inr fun slot' hslot => ?_)) h⟩
    rw [hhead] at hslot
    cases hslot
    exact hnone
  | case4 s level hs slot hhead maker ho qty t hf u =>
    rename_i ih
    have hsize : u.1.trades.size = s.trades.size + 1 := Array.size_push ..
    obtain ⟨k, hk, hends⟩ := ih h
    refine ⟨k + 1, by omega, .more ?_ hends⟩
    rw [step_of_maker hs hhead ho]
    dsimp only
    rw [if_pos hf]
  | case5 s level hs slot hhead maker ho qty t =>
    rename_i hf
    have hsize : t.1.trades.size = s.trades.size + 1 := Array.size_push ..
    have hfilled : t.1.taker.isFilled := isFilled_of_outlasted hs rfl hf
    refine ⟨2, by omega, .more (b := { sweep := t.1, loan := some (rank, t.2) }) ?_
      (.more (step_of_done (Or.inl hfilled)) h)⟩
    rw [step_of_maker hs hhead ho]
    dsimp only
    rw [if_neg hf]

theorem setLadder_ladder (b : Book) (side : Side) : b.setLadder side (b.ladder side) = b := by
  cases side <;> rfl

theorem setLadder_setLadder (b : Book) (side : Side) (l l' : Ladder) :
    (b.setLadder side l).setLadder side l' = b.setLadder side l' := by
  cases side <;> rfl

/-- What a search finds is on top of the candidates that it leaves. -/
theorem Ladder.top?_search (l : Ladder) :
    (l.search.2 = none → l.search.1.candidates.top? = none) ∧
      ∀ rank level, l.search.2 = some (rank, level) →
        l.search.1.candidates.top? = some rank ∧
        l.search.1.levels[rank]?.filter (!·.isEmpty) = some level := by
  fun_induction Ladder.search l with
  | case1 l htop =>
    refine ⟨fun _ => htop, fun rank level heq => ?_⟩
    cases heq
  | case2 l top htop level hf =>
    refine ⟨fun heq => ?_, fun rank level' heq => ?_⟩
    · cases heq
    · cases heq
      exact ⟨htop, hf⟩
  | case3 l top htop hf ih => exact ih

/-- A search takes a step for each candidate that it drops. -/
theorem Dealing.ends_of_search {l : Ladder} (hl : s.book.ladder s.taker.side.opposite = l)
    (hs : ¬ s.taker.isFilled) {n : Nat} {a : Dealing}
    (h : EndsIn step
      { sweep := { s with book := s.book.setLadder s.taker.side.opposite l.search.1 } } n a) :
    ∃ k, k + l.search.1.candidates.count ≤ l.candidates.count ∧
      EndsIn step { sweep := s } (n + k) a := by
  fun_induction Ladder.search l generalizing s with
  | case1 l htop =>
    rw [← hl, setLadder_ladder] at h
    exact ⟨0, Nat.le_of_eq (Nat.zero_add _), h⟩
  | case2 l top htop level hf =>
    rw [← hl, setLadder_ladder] at h
    exact ⟨0, Nat.le_of_eq (Nat.zero_add _), h⟩
  | case3 l top htop hf ih =>
    generalize hnext : Sweep.mk (s.book.setLadder s.taker.side.opposite
      { l with candidates := l.candidates.pop }) s.taker s.trades = next
    have hdrop : step { sweep := s } = ({ sweep := next }, true) := by
      rw [step_of_stale hs (hl.symm ▸ htop) (hl.symm ▸ hf), hl, hnext]
    obtain ⟨k, hk, hends⟩ := ih (s := next)
      (by rw [← hnext, ladder_setLadder, if_pos rfl])
      (by rw [← hnext]; exact hs)
      (by rw [← hnext, setLadder_setLadder]; exact h)
    have hless := Candidates.count_pop_lt htop
    refine ⟨k + 1, by dsimp only at hk; omega, .more hdrop hends⟩

/-- To find a level, to trade with it and to put it back takes two steps besides the trades and the
candidates that are dropped. -/
theorem Dealing.ends_of_round {side : Side} (hside : side = s.taker.side.opposite)
    (hs : ¬ s.taker.isFilled) {found : Ladder × Option (Int × Level)}
    (hfound : found = (s.book.ladder side).search) (hf : found.2 = some (rank, level))
    (ha : s.taker.side.accepts s.taker.price level.price) {t : Sweep × Level}
    (ht : t = Sweep.consume { s with book := s.book.setLadder side found.1 } level) {n : Nat}
    {a : Dealing}
    (h : EndsIn step
      { sweep := { t.1 with book := t.1.book.setLadder side (found.1.put rank t.2) } } n a) :
    ∃ k, k + s.trades.size + found.1.candidates.count ≤
        t.1.trades.size + (s.book.ladder side).candidates.count + 2 ∧
      EndsIn step { sweep := s } (n + k) a := by
  subst hside hfound
  generalize hs' : Sweep.mk _ s.taker s.trades = s' at ht
  have hladder' : s'.book.ladder s.taker.side.opposite =
      (s.book.ladder s.taker.side.opposite).search.1 := by
    rw [← hs', ladder_setLadder, if_pos rfl]
  have htaker' : s'.taker = s.taker := by rw [← hs']
  obtain ⟨htop, hlevel⟩ := (Ladder.top?_search _).2 rank level hf
  have htake : step { sweep := s' } = ({ sweep := s', loan := some (rank, level) }, true) := by
    rw [← hladder', ← htaker'] at htop hlevel
    rw [← htaker'] at hs ha
    rw [step_of_level hs htop hlevel, if_pos ha]
  obtain ⟨hladder, htaker⟩ := s'.consume_ladder level s.taker.side.opposite
  rw [← ht, hladder'] at hladder
  rw [← ht, htaker'] at htaker
  have hback : settle { sweep := t.1 } rank t.2 =
      { sweep :=
          { t.1 with
            book := t.1.book.setLadder s.taker.side.opposite
              ((s.book.ladder s.taker.side.opposite).search.1.put rank t.2) } } := by
    rw [settle, Dealing.side]
    dsimp only
    rw [htaker, hladder]
  rw [← hback, ht] at h
  obtain ⟨k, hk, hends⟩ := ends_of_consume h
  have hends' := EndsIn.more htake hends
  rw [← hs'] at hends'
  obtain ⟨k', hk', hends''⟩ := ends_of_search rfl hs hends'
  have hsize : s'.trades.size = s.trades.size := by rw [← hs']
  refine ⟨k + 1 + k', ?_, ?_⟩
  · rw [ht]
    omega
  · have hsum : n + (k + 1 + k') = n + k + 1 + k' := by omega
    rw [hsum]
    exact hends''

/-- **A taker at work comes to an end**, which is where trading in one go leads. Every level but the
last one that it finds is gone when it gives it back, so there are two steps at most for each level,
besides the trades and the candidates that are dropped. -/
theorem Dealing.ends_run {side : Side} (hside : side = s.taker.side.opposite)
    (h : s.book.Holds es) :
    ∃ n, n + s.trades.size ≤ (Sweep.run side s).trades.size +
        2 * (s.book.ladder side).levels.size + (s.book.ladder side).candidates.count + 1 ∧
      EndsIn step { sweep := s } n { sweep := Sweep.run side s } := by
  fun_induction Sweep.run side s generalizing es with
  | case1 s hs => exact ⟨1, by omega, .stop (step_of_filled hs)⟩
  | case2 s hs found book =>
    rename_i hnone
    subst hside
    have hstop : EndsIn step { sweep := { s with book } } 1 { sweep := { s with book } } := by
      refine .stop (step_of_none hs ?_)
      dsimp only
      rw [ladder_setLadder, if_pos rfl, (Ladder.top?_search _).1 hnone]
    obtain ⟨k, hk, hends⟩ := ends_of_search rfl hs hstop
    exact ⟨1 + k, by dsimp only; omega, hends⟩
  | case3 s hs found book rank level hf ha t book' hempty =>
    rename_i ih
    obtain ⟨htaker, -, es', hholds, -⟩ := Sweep.holds_round hside h rfl hf ha rfl
    obtain ⟨n, hn, hends⟩ := ih (hside.trans (congrArg Side.opposite htaker.symm)) hholds
    obtain ⟨k, hk, hends'⟩ := ends_of_round (t := t) hside hs rfl hf ha rfl hends
    have hm := Ladder.mem_levels_of_search hf
    have hladder : book'.ladder side = found.1.put rank t.2 := by
      rw [ladder_setLadder, if_pos rfl]
    have hless : (book'.ladder side).levels.size < (s.book.ladder side).levels.size := by
      rw [hladder, ← Ladder.levels_search (s.book.ladder side)]
      exact Ladder.size_put_lt (by rwa [Ladder.levels_search]) hempty
    have hcount : (book'.ladder side).candidates.count =
        (s.book.ladder side).search.1.candidates.count := by
      rw [hladder]
      rfl
    refine ⟨n + k, ?_, hends'⟩
    replace hn : n + t.1.trades.size ≤ (Sweep.run side ⟨book', t.1.taker, t.1.trades⟩).trades.size +
      2 * (book'.ladder side).levels.size + (book'.ladder side).candidates.count + 1 := hn
    show n + k + s.trades.size ≤ (Sweep.run side ⟨book', t.1.taker, t.1.trades⟩).trades.size +
      2 * (s.book.ladder side).levels.size + (s.book.ladder side).candidates.count + 1
    omega
  | case4 s hs found book rank level hf ha t book' hne =>
    -- The level still has orders, so the taker is filled and looks for no other level.
    obtain ⟨-, hend, -⟩ := Sweep.holds_round hside h rfl hf ha rfl
    have hstop : EndsIn step { sweep := { t.1 with book := book' } } 1
        { sweep := { t.1 with book := book' } } := .stop (step_of_filled (hend hne))
    obtain ⟨k, hk, hends⟩ := ends_of_round (t := t) hside hs rfl hf ha rfl hstop
    have hpos := Ladder.size_pos (Ladder.mem_levels_of_search hf)
    refine ⟨1 + k, ?_, hends⟩
    show 1 + k + s.trades.size ≤ t.1.trades.size + 2 * (s.book.ladder side).levels.size +
      (s.book.ladder side).candidates.count + 1
    omega
  | case5 s hs found book rank level hf =>
    rename_i ha
    subst hside
    have hstop : EndsIn step { sweep := { s with book } } 1 { sweep := { s with book } } := by
      obtain ⟨htop, hlevel⟩ := (Ladder.top?_search _).2 rank level hf
      have hladder : book.ladder s.taker.side.opposite = found.1 := by
        rw [ladder_setLadder, if_pos rfl]
      rw [← hladder] at htop hlevel
      refine .stop ((step_of_level (s := { s with book }) hs htop hlevel).trans ?_)
      exact if_neg ha
    obtain ⟨k, hk, hends⟩ := ends_of_search rfl hs hstop
    exact ⟨1 + k, by dsimp only; omega, hends⟩

/-! ## What is so at the end -/

/-- The resting orders, in the order of their ids. -/
def resting (b : Book) : List Order :=
  b.index.keys.filterMap b.order?

/-- The resting orders of the other side that are within the limit of a taker. -/
def opposing (b : Book) (taker : Order) : List Order :=
  b.resting.filter fun o =>
    o.side = taker.side.opposite && taker.side.accepts taker.price o.price

/-- What a taker leaves behind at the end of its way through a book. -/
structure Sweep.Finishes (b : Book) (taker : Order) (s : Sweep) : Prop where
  /-- There are no more trades than orders that it could trade with. -/
  size_le : s.trades.size ≤ (b.opposing taker).length
  distinct : (s.trades.toList.map (·.maker)).Nodup
  positive : ∀ t ∈ s.trades.toList, 0 < t.qty
  /-- It begins with the best price. -/
  best : ∀ t, s.trades.toList.head? = some t → b.best? taker.side.opposite = some t.price
  /-- The prices get no better. -/
  onward : s.trades.toList.Pairwise fun t u =>
    taker.side.opposite.rank t.price ≤ taker.side.opposite.rank u.price
  /-- Every maker but the last has given all that it had and is gone. -/
  consumed : ∀ t ∈ s.trades.toList.dropLast,
    (∃ m, b.order? t.maker = some m ∧ m.qty = t.qty) ∧ s.book.contains t.maker = false
  /-- What is returned is what is left of it, or nothing if it came with nothing. -/
  rest : s.rest = if 0 < taker.qty then s.taker.qty else 0
  /-- It wants nothing more, or there is nobody left. -/
  ended : s.rest = 0 ∨ s.book.opposing taker = []

variable {b : Book} {f : Plain}

theorem Shows.resting_perm (h : b.Shows f) : b.resting.Perm f.resting := by
  have hids : b.index.keys.Perm (f.resting.map (·.id)) := by
    refine (List.perm_ext_iff_of_nodup Std.TreeMap.nodup_keys h.tidy.distinct).2 fun id => ?_
    rw [Std.TreeMap.mem_keys, ← Std.TreeMap.contains_iff_mem]
    show b.contains id ↔ _
    rw [h.contains]
    simp [Plain.contains]
  refine (hids.filterMap _).trans (.of_eq ?_)
  rw [List.filterMap_map, h.order?_eq]
  refine (List.filterMap_congr fun o ho => ?_).trans List.filterMap_some
  exact h.tidy.order?_eq_some ho

theorem Shows.opposing_perm (h : b.Shows f) (taker : Order) :
    (b.opposing taker).Perm (f.opposing taker) :=
  h.resting_perm.filter _

theorem Shows.finishes (h : b.Shows f) (taker : Order) : (b.trade taker).Finishes b taker := by
  obtain ⟨hshows, htaker, htrades, hrest⟩ := h.trade taker
  have hconsumes := h.tidy.consumes_trade taker
  have hend := (h.tidy.passes_trade taker).2
  refine ⟨?_, ?_, ?_, ?_, ?_, ?_, ?_, ?_⟩
  · rw [← Array.length_toList, htrades, (h.opposing_perm taker).length_eq]
    exact hconsumes.length_trades_le
  · exact htrades ▸ hconsumes.distinct
  · rw [htrades]
    intro t ht
    obtain ⟨past, next, heq⟩ := List.append_of_mem ht
    exact (hconsumes.fair past t next heq).positive
  · intro t ht
    rw [htrades] at ht
    exact (h.seek _).2.trans (Plain.best?_of_head? ht)
  · exact htrades ▸ hconsumes.onward
  · rw [htrades]
    intro t ht
    have hgone := hconsumes.gone t ht
    rw [h.order?, hshows.contains]
    exact ⟨hconsumes.qty_of_gone (List.dropLast_subset _ ht) hgone, hgone⟩
  · rw [Sweep.rest, Order.isFilled, htaker]
    by_cases hq : 0 < taker.qty
    · have hnonneg := hconsumes.nonneg (Int64.le_of_lt hq)
      rw [if_pos hq]
      split
      · next hfilled => exact Int64.le_antisymm hnonneg (of_decide_eq_true hfilled)
      · rfl
    · -- It came with nothing and leaves as it came.
      have hle := Int64.not_lt.1 hq
      have hstay : f.trade taker = { book := f, taker } := by
        refine Plain.run_of_none ?_
        rw [Plain.Sweep.step?, if_pos hle]
      rw [if_neg hq, hstay]
      exact if_pos (decide_eq_true hle)
  · rcases hend with hfilled | hnobody
    · left
      rw [Sweep.rest, htaker]
      exact if_pos (decide_eq_true hfilled)
    · right
      refine List.Perm.eq_nil (l := (b.trade taker).book.opposing taker) ?_
      refine (hshows.opposing_perm taker).trans (.of_eq ?_)
      refine List.filter_eq_nil_iff.2 fun m hm => ?_
      simpa using hnobody m hm

/-- **A taker finishes.** In a book of any bound, after any commands and calls, a taker at work
comes to an end, with a trade at most for each order that it could trade with and a few steps for
each level. No maker is named twice, all but the last are used up, and the prices only get worse.
At the end nothing is left of the taker, or nobody that it could trade with. -/
theorem taker_finishes (o : Opening) (ms : List Move) (taker : Order) :
    let b := o.book.moves ms
    (∃ n, n ≤ (b.trade taker).trades.size + 2 * b.depth taker.side.opposite +
        (b.ladder taker.side.opposite).candidates.count + 1 ∧
      EndsIn Dealing.step { sweep := { book := b, taker } } n { sweep := b.trade taker }) ∧
    (b.trade taker).Finishes b taker := by
  intro b
  obtain ⟨f, hshows⟩ : ∃ f, b.Shows f := ⟨_, (shows_opening o).moves ms⟩
  obtain ⟨es, hes, -⟩ := id hshows
  exact ⟨Dealing.ends_run (s := { book := b, taker }) rfl hes, hshows.finishes taker⟩

end Book

end Bourse
