import Bourse.Proofs.Book.Crossing
import Bourse.Proofs.Book.Soundness

/-!
# Mirrored books

Bids and offers are treated alike, but for the direction of their prices. In the mirror image of a
market everybody is on the other side and all prices have the opposite sign, so that the highest
becomes the lowest. `Plain.Reversible.call_mirror` shows for every single call that its image gets
the image of its answer, and `Book.bids_mirror_asks` follows for whole lists of calls. The lowest
number of all has no opposite, so no order may have it for its price.
-/

namespace Bourse

/-! ## Mirror images -/

/-- An order of the other side at the opposite price. -/
def Order.mirror (o : Order) : Order :=
  { o with side := o.side.opposite, price := -o.price }

/-- A trade at the opposite price. -/
def Trade.mirror (t : Trade) : Trade :=
  { t with price := -t.price }

/-- A quote at the opposite price. -/
def Quote.mirror {κ : Type} (q : Quote κ) : Quote κ :=
  { q with price := -q.price }

/-- The bid in place of the offer, and the offer in place of the bid. -/
def TopOfBook.mirror {κ : Type} (t : TopOfBook κ) : TopOfBook κ where
  bid := t.ask.map Quote.mirror
  ask := t.bid.map Quote.mirror

/-- The same call for the other side. -/
def Call.mirror : Call → Call
  | .add o => .add o.mirror
  | .trade taker => .trade taker.mirror
  | .submit taker => .submit taker.mirror
  | .best side => .best side.opposite
  | .quote side price => .quote side.opposite (-price)
  | .ids side price => .ids side.opposite (-price)
  | .depth side => .depth side.opposite
  | .top => .top
  | .cancel id => .cancel id
  | .order id => .order id
  | .contains id => .contains id
  | .size => .size
  | .isFull => .isFull

/-- The same answer with the opposite prices. -/
def Answer.mirror {κ : Type} : Answer κ → Answer κ
  | .traded trades rest taker => .traded (trades.map Trade.mirror) rest taker.mirror
  | .submitted trades rested => .submitted (trades.map Trade.mirror) rested
  | .price p => .price (p.map (- ·))
  | .quote q => .quote (q.map Quote.mirror)
  | .order o => .order (o.map Order.mirror)
  | .top t => .top t.mirror
  | .done ok => .done ok
  | .ids l => .ids l
  | .number n => .number n

theorem TopOfBook.map_mirror {κ μ : Type} (f : κ → μ) (t : TopOfBook κ) :
    t.mirror.map f = (t.map f).mirror := by
  obtain ⟨_ | bid, _ | ask⟩ := t <;> rfl

/-- Other sums of quantities have the same image. -/
theorem Answer.map_mirror {κ μ : Type} (f : κ → μ) (a : Answer κ) :
    a.mirror.map f = (a.map f).mirror := by
  cases a with
  | quote q => cases q <;> rfl
  | top t => exact congrArg Answer.top (t.map_mirror f)
  | _ => rfl

/-- All orders on the other side. -/
def Plain.mirror (b : Plain) : Plain :=
  { b with resting := b.resting.map Order.mirror }

/-- A taker on its way through the mirrored book. -/
def Plain.Sweep.mirror (s : Sweep) : Sweep where
  book := s.book.mirror
  taker := s.taker.mirror
  trades := s.trades.map Trade.mirror

/-! ## Opposite prices -/

/-- The price has an opposite: it is not the lowest number. -/
def Order.Reversible (o : Order) : Prop :=
  o.price ≠ Int64.minValue

/-- All resting orders have prices with an opposite. -/
def Plain.Reversible (b : Plain) : Prop :=
  ∀ o ∈ b.resting, o.Reversible

/-- The order that a call brings, if any, has a price with an opposite. -/
def Call.Reversible : Call → Prop
  | .add o => o.Reversible
  | .trade taker => taker.Reversible
  | .submit taker => taker.Reversible
  | _ => True

theorem Price.toInt_neg {p : Price} (h : p ≠ Int64.minValue) : (-p).toInt = -p.toInt := by
  have hne : p.toInt ≠ -2 ^ 63 := fun heq => h (Int64.toInt_inj.1 heq)
  have hle := p.le_toInt
  have hlt := p.toInt_lt
  rw [Int64.toInt_neg, Int.bmod_eq_of_le] <;> omega

theorem Side.rank_neg (s : Side) {p : Price} (h : p ≠ Int64.minValue) :
    s.opposite.rank (-p) = s.rank p := by
  cases s with
  | buy => exact Price.toInt_neg h
  | sell =>
    show -(-p).toInt = p.toInt
    rw [Price.toInt_neg h, Int.neg_neg]

theorem Price.neg_le_neg {p q : Price} (hp : p ≠ Int64.minValue) (hq : q ≠ Int64.minValue) :
    -p ≤ -q ↔ q ≤ p := by
  rw [Int64.le_iff_toInt_le, Int64.le_iff_toInt_le, toInt_neg hp, toInt_neg hq, Int.neg_le_neg_iff]

theorem Side.accepts_neg (s : Side) {limit p : Price} (hl : limit ≠ Int64.minValue)
    (hp : p ≠ Int64.minValue) : s.opposite.accepts (-limit) (-p) = s.accepts limit p := by
  cases s with
  | buy => exact decide_eq_decide.2 (Price.neg_le_neg hl hp)
  | sell => exact decide_eq_decide.2 (Price.neg_le_neg hp hl)

theorem Side.opposite_inj {s t : Side} : s.opposite = t.opposite ↔ s = t := by
  cases s <;> cases t <;> decide

theorem Order.Reversible.rank_mirror {o : Order} (h : o.Reversible) : o.mirror.rank = o.rank :=
  o.side.rank_neg h

namespace Plain

variable {b : Plain} {o taker : Order}

/-! ## Operations -/

theorem contains_mirror (b : Plain) (id : OrderId) : b.mirror.contains id = b.contains id := by
  rw [contains, mirror, List.any_map]
  rfl

theorem isFull_mirror (b : Plain) : b.mirror.isFull = b.isFull := by
  rw [isFull, mirror, List.length_map]
  rfl

theorem order?_mirror (b : Plain) (id : OrderId) :
    b.mirror.order? id = (b.order? id).map Order.mirror := by
  rw [order?, mirror, List.find?_map]
  rfl

theorem add?_mirror (b : Plain) (o : Order) : b.mirror.add? o.mirror = (b.add? o).map mirror := by
  have hid := b.contains_mirror o.id
  rw [add?, isFull_mirror, add?]
  show (if o.qty ≤ 0 || b.mirror.contains o.id || b.isFull then none else _) = _
  rw [hid]
  split
  · rfl
  · simp [mirror]

theorem cancel?_mirror (b : Plain) (id : OrderId) :
    b.mirror.cancel? id = (b.cancel? id).map mirror := by
  rw [cancel?, contains_mirror, cancel?]
  split
  · simp only [mirror, Option.map_some, List.filter_map]
    rfl
  · rfl

theorem deduct_mirror (b : Plain) (id : OrderId) (qty : Qty) :
    b.mirror.deduct id qty = (b.deduct id qty).mirror := by
  simp only [deduct, mirror, List.filterMap_map, List.map_filterMap]
  congr 2
  funext o
  rw [Function.comp_apply]
  show (if o.id ≠ id then some o.mirror else if o.qty ≤ qty then none else _) = _
  split
  · rfl
  · split
    · rfl
    · rfl

/-- Who is within the limit of a taker is within the opposite limit in the mirror. -/
theorem Reversible.opposing_mirror (h : b.Reversible) (ht : taker.Reversible) :
    b.mirror.opposing taker.mirror = (b.opposing taker).map Order.mirror := by
  rw [opposing, mirror, List.filter_map, opposing]
  congr 1
  refine List.filter_congr fun o ho => ?_
  show (decide (o.side.opposite = taker.side.opposite.opposite) &&
    taker.side.opposite.accepts (-taker.price) (-o.price)) = _
  rw [Side.accepts_neg _ ht (h o ho), decide_eq_decide.2 Side.opposite_inj]

/-! ## Takers -/

namespace Sweep

variable {s t : Sweep}

/-- Neither the taker nor a resting order has the lowest number for its price. -/
def Reversible (s : Sweep) : Prop :=
  s.book.Reversible ∧ s.taker.Reversible

theorem Reversible.step (h : s.Reversible) (hstep : s.step? = some t) : t.Reversible := by
  obtain ⟨-, maker, -, rfl⟩ := first?_of_step? hstep
  refine ⟨fun m hm => ?_, h.2⟩
  obtain ⟨o, ho, hsame, -⟩ := mem_deduct hm
  rw [hsame]
  exact h.1 o ho

theorem Reversible.run (h : s.Reversible) : s.run.Reversible :=
  (run_induct (fun _ _ hs hstep => hs.step hstep) h).1

/-- The next trade of the mirrored taker is the mirrored trade. -/
theorem Reversible.step?_mirror (h : s.Reversible) : s.mirror.step? = s.step?.map mirror := by
  obtain ⟨hbook, htaker⟩ := h
  have hopp := hbook.opposing_mirror htaker
  have hfirst : first? ((s.book.opposing s.taker).map Order.mirror) =
      (first? (s.book.opposing s.taker)).map Order.mirror :=
    first?_map fun o ho => (hbook o (mem_opposing.1 ho).1).rank_mirror
  rw [step?, step?]
  show (if s.taker.qty ≤ 0 then none else
    (first? (s.book.mirror.opposing s.taker.mirror)).map _) = _
  rw [hopp, hfirst]
  split
  · rfl
  · rw [Option.map_map, Option.map_map]
    congr 1
    funext maker
    simp only [Function.comp_apply, mirror, List.map_append, List.map_cons, List.map_nil]
    rw [← deduct_mirror]
    rfl

/-- The way of the mirrored taker is the mirrored way. -/
theorem Reversible.run_mirror (h : s.Reversible) : s.mirror.run = s.run.mirror := by
  fun_induction Sweep.run s with
  | case1 s hnone =>
    refine run_of_none ?_
    rw [h.step?_mirror, hnone]
    rfl
  | case2 s t hsome ih =>
    have hstep : s.mirror.step? = some t.mirror := by
      rw [h.step?_mirror, hsome]
      rfl
    rw [← Book.Sweep.run_of_step? hstep]
    exact ih (h.step hsome)

end Sweep

theorem Reversible.trade_mirror (h : b.Reversible) (ht : taker.Reversible) :
    b.mirror.trade taker.mirror = (b.trade taker).mirror :=
  Sweep.Reversible.run_mirror (s := { book := b, taker }) ⟨h, ht⟩

theorem Reversible.trade (h : b.Reversible) (ht : taker.Reversible) :
    (b.trade taker).Reversible :=
  Sweep.Reversible.run (s := { book := b, taker }) ⟨h, ht⟩

theorem Reversible.add? (h : b.Reversible) (ho : o.Reversible) {b' : Plain}
    (hadd : b.add? o = some b') : b'.Reversible := by
  rw [Plain.add?] at hadd
  split at hadd
  · cases hadd
  · obtain rfl := Option.some.inj hadd
    intro m hm
    rcases List.mem_append.1 hm with hm | hm
    · exact h m hm
    · exact List.mem_singleton.1 hm ▸ ho

theorem Reversible.cancel? (h : b.Reversible) {id : OrderId} {b' : Plain}
    (hcancel : b.cancel? id = some b') : b'.Reversible := by
  rw [Plain.cancel?] at hcancel
  split at hcancel
  · obtain rfl := Option.some.inj hcancel
    exact fun m hm => h m (List.mem_of_mem_filter hm)
  · cases hcancel

theorem Reversible.submit_mirror (h : b.Reversible) (ht : taker.Reversible) :
    b.mirror.submit taker.mirror =
      ((b.submit taker).1.mirror, (b.submit taker).2.1.map Trade.mirror, (b.submit taker).2.2) := by
  rw [submit, h.trade_mirror ht, submit]
  dsimp only [Sweep.mirror]
  rw [add?_mirror]
  cases (b.trade taker).book.add? (b.trade taker).taker with
  | none => rfl
  | some book => rfl

theorem Reversible.submit (h : b.Reversible) (ht : taker.Reversible) :
    (b.submit taker).1.Reversible := by
  obtain ⟨hbook, htaker⟩ := h.trade ht
  rw [Plain.submit]
  split
  · next book hadd => exact hbook.add? htaker hadd
  · exact hbook

/-! ## Queries -/

theorem prices_mirror (b : Plain) (s : Side) :
    b.mirror.prices s.opposite = (b.prices s).map (- ·) := by
  rw [prices, mirror, List.filter_map, List.map_map, prices, List.map_map]
  congr 1
  refine List.filter_congr fun o _ => ?_
  exact decide_eq_decide.2 Side.opposite_inj

theorem Reversible.prices (h : b.Reversible) {s : Side} {p : Price} (hp : p ∈ b.prices s) :
    p ≠ Int64.minValue := by
  obtain ⟨o, ho, rfl⟩ := List.mem_map.1 hp
  exact h o (List.mem_of_mem_filter ho)

/-- The best price in the mirror is the opposite of the best price on the other side. -/
theorem Reversible.best?_mirror (h : b.Reversible) (s : Side) :
    b.mirror.best? s.opposite = (b.best? s).map (- ·) := by
  rw [best?, prices_mirror]
  refine find?_all_map fun p hp q hq => ?_
  rw [Bool.eq_iff_iff, leads_iff, leads_iff, s.rank_neg (h.prices hp), s.rank_neg (h.prices hq)]

theorem depth_mirror (b : Plain) (s : Side) : b.mirror.depth s.opposite = b.depth s := by
  have hinj : Function.Injective fun p : Price => -p := fun _ _ heq => Int64.neg_inj.1 heq
  rw [depth, prices_mirror, List.dedup_map_of_injective hinj, List.length_map]
  rfl

theorem ordersAt_mirror (b : Plain) (s : Side) (p : Price) :
    b.mirror.ordersAt s.opposite (-p) = (b.ordersAt s p).map Order.mirror := by
  rw [ordersAt, mirror, List.filter_map, ordersAt]
  congr 1
  refine List.filter_congr fun o _ => ?_
  show (decide (o.side.opposite = s.opposite) && decide (-o.price = -p)) = _
  rw [decide_eq_decide.2 Side.opposite_inj, decide_eq_decide.2 Int64.neg_inj]

theorem lots_mirror (l : List Order) : Order.lots (l.map Order.mirror) = Order.lots l := by
  induction l with
  | nil => rfl
  | cons o l ih => exact congrArg (o.qty.toInt + ·) ih

theorem quote?_mirror (b : Plain) (s : Side) (p : Price) :
    b.mirror.quote? s.opposite (-p) = (b.quote? s p).map Quote.mirror := by
  simp only [quote?, ordersAt_mirror, List.map_eq_nil_iff, lots_mirror, List.length_map]
  split
  · rfl
  · rfl

theorem Reversible.bind_quote?_mirror (h : b.Reversible) (s : Side) :
    (b.mirror.best? s.opposite).bind (b.mirror.quote? s.opposite) =
      ((b.best? s).bind (b.quote? s)).map Quote.mirror := by
  rw [h.best?_mirror]
  cases b.best? s with
  | none => rfl
  | some p => exact b.quote?_mirror s p

theorem Reversible.top_mirror (h : b.Reversible) : b.mirror.top = b.top.mirror := by
  rw [top, top, TopOfBook.mirror]
  congr 1
  · exact h.bind_quote?_mirror .sell
  · exact h.bind_quote?_mirror .buy

/-- The distance of the best prices is the same from both sides. -/
theorem Reversible.spread?_mirror (h : b.Reversible) : b.mirror.top.spread? = b.top.spread? := by
  rw [h.top_mirror]
  obtain ⟨_ | bid, _ | ask⟩ := b.top
  · rfl
  · rfl
  · rfl
  · show some (-bid.price - -ask.price) = some (ask.price - bid.price)
    rw [Int64.sub_eq_add_neg, Int64.neg_neg, Int64.add_comm, Int64.sub_eq_add_neg]

/-! ## Calls -/

theorem Reversible.call (h : b.Reversible) {c : Call} (hc : c.Reversible) :
    (b.call c).1.Reversible := by
  cases c with
  | add o =>
    show ((b.add? o).getD b).Reversible
    cases hadd : b.add? o with
    | none => exact h
    | some b' => exact h.add? hc hadd
  | cancel id =>
    show ((b.cancel? id).getD b).Reversible
    cases hcancel : b.cancel? id with
    | none => exact h
    | some b' => exact h.cancel? hcancel
  | trade taker => exact (h.trade hc).1
  | submit taker => exact h.submit hc
  | best | quote | ids | order | contains | size | depth | isFull | top => exact h

/-- The image of a call gets the image of its answer, and leaves the image of its book. -/
theorem Reversible.call_mirror (h : b.Reversible) {c : Call} (hc : c.Reversible) :
    b.mirror.call c.mirror = ((b.call c).1.mirror, (b.call c).2.mirror) := by
  cases c with
  | add o =>
    rw [Call.mirror, Plain.call, add?_mirror, Plain.call]
    cases b.add? o with
    | none => rfl
    | some b' => rfl
  | cancel id =>
    rw [Call.mirror, Plain.call, cancel?_mirror, Plain.call]
    cases b.cancel? id with
    | none => rfl
    | some b' => rfl
  | trade taker =>
    rw [Call.mirror, Plain.call, h.trade_mirror hc]
    rfl
  | submit taker =>
    rw [Call.mirror, Plain.call, h.submit_mirror hc]
    rfl
  | best side =>
    rw [Call.mirror, Plain.call, h.best?_mirror]
    rfl
  | quote side price =>
    rw [Call.mirror, Plain.call, quote?_mirror]
    rfl
  | ids side price =>
    rw [Call.mirror, Plain.call, ordersAt_mirror, List.map_map]
    rfl
  | order id =>
    rw [Call.mirror, Plain.call, order?_mirror]
    rfl
  | contains id =>
    rw [Call.mirror, Plain.call, contains_mirror]
    rfl
  | size =>
    rw [Call.mirror, Plain.call, mirror, List.length_map]
    rfl
  | depth side =>
    rw [Call.mirror, Plain.call, depth_mirror]
    rfl
  | isFull =>
    rw [Call.mirror, Plain.call, isFull_mirror]
    rfl
  | top =>
    rw [Call.mirror, Plain.call, h.top_mirror]
    rfl

end Plain

namespace Book

variable {b b' : Book} {f : Plain}

/-- Two books that show a market and its image answer as images of each other, and go on to show
images of each other. -/
theorem Shows.answers_mirror (h : b.Shows f) (h' : b'.Shows f.mirror) (hf : f.Reversible)
    {calls : List Call} (hcalls : ∀ c ∈ calls, c.Reversible) :
    b'.answers (calls.map Call.mirror) = (b.answers calls).map Answer.mirror ∧
      (b'.after (calls.map Call.mirror)).top.spread? = (b.after calls).top.spread? := by
  induction calls generalizing b b' f with
  | nil =>
    refine ⟨rfl, ?_⟩
    show b'.seekTop.2.spread? = b.seekTop.2.spread?
    rw [h'.seekTop.2, h.seekTop.2, TopOfBook.spread?_map, TopOfBook.spread?_map]
    exact hf.spread?_mirror
  | cons c calls ih =>
    obtain ⟨hc, hcalls⟩ := List.forall_mem_cons.1 hcalls
    obtain ⟨hnext, hanswer⟩ := h.call c
    obtain ⟨hnext', hanswer'⟩ := h'.call c.mirror
    rw [hf.call_mirror hc] at hnext' hanswer'
    obtain ⟨hanswers, hspread⟩ := ih hnext hnext' (hf.call hc) hcalls
    refine ⟨?_, hspread⟩
    rw [List.map_cons, Book.answers, Book.answers, List.map_cons, hanswers, hanswer', hanswer,
      Answer.map_mirror]

/-- **Bids and offers mirror each other.** For any calls to a book of any bound, the mirrored calls,
on the other side at the opposite prices, get the mirrored answers: the same trades at the opposite
prices, the same returned values, and of every query about a side what the other side has. The
spread is the same at any time. -/
theorem bids_mirror_asks (o : Opening) (calls : List Call) (h : ∀ c ∈ calls, c.Reversible) :
    o.book.answers (calls.map Call.mirror) = (o.book.answers calls).map Answer.mirror ∧
      (o.book.after (calls.map Call.mirror)).top.spread? = (o.book.after calls).top.spread? := by
  have hempty : o.plain.mirror = o.plain ∧ o.plain.Reversible := by
    cases o <;> exact ⟨rfl, fun m hm => absurd hm List.not_mem_nil⟩
  have hmirror : o.book.Shows o.plain.mirror := by
    rw [hempty.1]
    exact shows_opening o
  exact (shows_opening o).answers_mirror hmirror hempty.2 h

/-- An offer of which a buyer takes a part, a bid below it, and the queries that tell. -/
def twoSidedCalls : List Call :=
  [.submit { id := 1, user := 1, side := .sell, price := 10, qty := 5 },
   .trade { id := 2, user := 2, side := .buy, price := 12, qty := 3 },
   .add { id := 3, user := 2, side := .buy, price := 8, qty := 4 },
   .best .sell, .quote .buy 8, .ids .sell 10, .top]

theorem bids_mirror_asks_twoSidedCalls :
    ({} : Book).answers (twoSidedCalls.map Call.mirror) =
      [.submitted [] 5, .traded [{ maker := 1, taker := 2, price := -10, qty := 3 }] 0
          { id := 2, user := 2, side := .sell, price := -12, qty := 0 },
        .done true, .price (some (-10)), .quote (some { price := -8, qty := 4, orders := 1 }),
        .ids [1],
        .top { bid := some { price := -10, qty := 2, orders := 1 }
               ask := some { price := -8, qty := 4, orders := 1 } }] ∧
      (({} : Book).after (twoSidedCalls.map Call.mirror)).top.spread? =
        (({} : Book).after twoSidedCalls).top.spread? := by
  have hreversible : ∀ c ∈ twoSidedCalls, c.Reversible := by
    simp only [twoSidedCalls, List.forall_mem_cons, Call.Reversible, Order.Reversible,
      List.not_mem_nil, false_imp_iff, implies_true, and_true]
    decide
  obtain ⟨hanswers, hspread⟩ := bids_mirror_asks .new twoSidedCalls hreversible
  refine ⟨hanswers.trans ?_, hspread⟩
  decide +kernel

end Book

end Bourse
