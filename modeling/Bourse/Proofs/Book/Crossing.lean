import Bourse.Proofs.Book.Executing

/-!
# Books are never crossed

No buyer and no seller that rest at the same time would trade with each other: a taker rests only
when it is not filled, and then the end of its way leaves nobody that it accepts. `Move` lists
what a book can be told, commands as well as calls, in any order; only an order that is added
without trading could cross a book, and `Book.bid_lt_ask` leaves just that out.
-/

namespace Bourse

/-- What a book is told: a command, or a call. -/
inductive Move where
  | command (command : Command)
  | call (call : Call)

/-- A book does as it is told. -/
def Book.move (b : Book) : Move → Book
  | .command c => (b.execute c).1
  | .call c => (b.call c).1

@[inherit_doc Book.move]
def Plain.move (b : Plain) : Move → Plain
  | .command c => (b.execute c).1
  | .call c => (b.call c).1

/-- A book after a list of moves. -/
def Book.moves (b : Book) (ms : List Move) : Book :=
  ms.foldl move b

@[inherit_doc Book.moves]
def Plain.moves (b : Plain) (ms : List Move) : Plain :=
  ms.foldl move b

theorem Book.Shows.move {b : Book} {f : Plain} (h : b.Shows f) (m : Move) :
    (b.move m).Shows (f.move m) := by
  cases m with
  | command c => exact (h.executes c).1
  | call c => exact (h.call c).1

theorem Book.Shows.moves {b : Book} {f : Plain} (h : b.Shows f) (ms : List Move) :
    (b.moves ms).Shows (f.moves ms) := by
  induction ms generalizing b f with
  | nil => exact h
  | cons m ms ih => exact ih (h.move m)

/-- A price is at least one above a lower one, unless the distance is too far to be a price. -/
theorem Price.one_le_sub_iff {p q : Price} (h : p < q) :
    1 ≤ q - p ↔ q.toInt - p.toInt ≤ Int64.maxValue.toInt := by
  have hq := q.toInt_lt
  have hp := p.le_toInt
  rw [Int64.lt_iff_toInt_lt] at h
  rw [Int64.le_iff_toInt_le, Int64.toInt_sub, Int.bmod_def]
  simp only [Int64.toInt_one, Int64.toInt_maxValue]
  split <;> omega

namespace Plain

/-- No resting buyer would pay what a resting seller wants. -/
def Uncrossed (b : Plain) : Prop :=
  ∀ buyer ∈ b.resting, ∀ seller ∈ b.resting, buyer.side = .buy → seller.side = .sell →
    buyer.price < seller.price

/-- Every resting order has a price above zero. -/
def Priced (b : Plain) : Prop :=
  ∀ o ∈ b.resting, 0 < o.price

variable {f g : Plain} {o : Order} {bid ask : Price} {side : Side} {p : Price}

/-! ## What a move leaves and what it brings -/

/-- After an order went its way nothing rests that was not there before, but for what is left of
the order itself if it accepts nobody of the other side. -/
def Follows (f : Plain) (o : Order) (g : Plain) : Prop :=
  (∀ m ∈ g.resting, f.Knows m) ∨
    ∃ l last, g.resting = l ++ [last] ∧ (∀ m ∈ l, f.Knows m) ∧ last = { o with qty := last.qty } ∧
      ∀ m ∈ l, m.side = o.side.opposite → ¬ o.side.accepts o.price m.price

theorem Tidy.follows_trade (h : f.Tidy) (o : Order) : f.Follows o (f.trade o).book :=
  .inl (h.passes_trade o).1.kept

/-- What is left of an order rests only where it accepts nobody. -/
theorem Tidy.follows_rest (h : f.Tidy) (o : Order) (hq : ¬ (f.trade o).taker.qty ≤ 0)
    (hg : g.resting = (f.trade o).book.resting ++ [(f.trade o).taker]) : f.Follows o g := by
  obtain ⟨hpasses, hend⟩ := h.passes_trade o
  right
  refine ⟨_, _, hg, hpasses.kept, hpasses.taker, ?_⟩
  exact hend.resolve_left hq

theorem Tidy.follows_settled (h : f.Tidy) (o : Order) : f.Follows o (f.settled o) := by
  rw [settled]
  by_cases hq : (f.trade o).taker.qty ≤ 0
  · rw [if_pos hq]
    exact h.follows_trade o
  · rw [if_neg hq]
    exact h.follows_rest o hq rfl

/-- An order is added only with something to trade. -/
theorem add?_eq_some (h : f.add? o = some g) :
    ¬ o.qty ≤ 0 ∧ g.resting = f.resting ++ [o] := by
  rw [add?] at h
  split at h
  · cases h
  · next hno =>
    cases h
    simp only [Bool.or_eq_true, decide_eq_true_eq, not_or] at hno
    exact ⟨hno.1.1, rfl⟩

theorem Tidy.follows_submit (h : f.Tidy) (o : Order) : f.Follows o (f.submit o).1 := by
  rw [submit]
  cases hadd : (f.trade o).book.add? (f.trade o).taker with
  | none => exact h.follows_trade o
  | some g =>
    obtain ⟨hq, hg⟩ := add?_eq_some hadd
    exact h.follows_rest o hq hg

/-- A move takes orders off the book, or one order goes its way. The order of a command has a
price above zero. -/
theorem Tidy.move_cases (h : f.Tidy) (m : Move) (hm : ∀ o, m ≠ .call (.add o)) :
    (∀ o ∈ (f.move m).resting, f.Knows o) ∨
      ∃ o, f.Follows o (f.move m) ∧ (0 < o.price ∨ m = .call (.submit o)) := by
  have hsame (g : Plain) (hg : ∀ o ∈ g.resting, o ∈ f.resting) : ∀ o ∈ g.resting, f.Knows o :=
    fun o ho => knows_of_mem (hg o ho)
  cases m with
  | command c =>
    rw [move]
    rcases h.execute_cases c with
      ⟨id, user, reason, heq⟩ | ⟨o, _, -, hprice, -, -, -, heq⟩ | ⟨id, heq⟩
    · rw [heq]
      exact .inl (hsame f fun o ho => ho)
    · rw [heq]
      exact .inr ⟨o, h.follows_settled o, .inl hprice⟩
    · rw [heq]
      exact .inl (hsame _ fun o ho => (List.mem_filter.1 ho).1)
  | call c =>
    cases c with
    | add o => exact absurd rfl (hm o)
    | cancel id =>
      left
      refine hsame _ fun o ho => ?_
      rw [move, call, cancel?] at ho
      split at ho
      · exact (List.mem_filter.1 ho).1
      · exact ho
    | trade o => exact .inl (h.passes_trade o).1.kept
    | submit o => exact .inr ⟨o, h.follows_submit o, .inr rfl⟩
    | _ => exact .inl (hsame f fun o ho => ho)

/-! ## One move -/

theorem Uncrossed.of_knows (h : f.Uncrossed) (hg : ∀ m ∈ g.resting, f.Knows m) :
    g.Uncrossed := by
  intro buyer hbuyer seller hseller hbuy hsell
  obtain ⟨buyer', hbuyer', heq⟩ := hg buyer hbuyer
  obtain ⟨seller', hseller', heq'⟩ := hg seller hseller
  rw [heq] at hbuy ⊢
  rw [heq'] at hsell ⊢
  exact h buyer' hbuyer' seller' hseller' hbuy hsell

/-- What rests of an order that accepts nobody is below all sellers, or above all buyers. -/
theorem Uncrossed.of_follows (h : f.Uncrossed) (hg : f.Follows o g) : g.Uncrossed := by
  rcases hg with hg | ⟨l, last, hg, hkept, hlast, hend⟩
  · exact h.of_knows hg
  have hold : ({ f with resting := l } : Plain).Uncrossed := h.of_knows hkept
  have hside : last.side = o.side := by rw [hlast]
  have hprice : last.price = o.price := by rw [hlast]
  intro buyer hbuyer seller hseller hbuy hsell
  rw [hg, List.mem_append, List.mem_singleton] at hbuyer hseller
  rcases hbuyer with hbuyer | rfl
  · rcases hseller with hseller | rfl
    · exact hold buyer hbuyer seller hseller hbuy hsell
    · have hno := hend buyer hbuyer
      rw [← hside, hsell, ← hprice] at hno
      have hlt := hno hbuy
      simp only [Side.accepts, decide_eq_true_eq] at hlt
      exact Int64.not_le.1 hlt
  · rcases hseller with hseller | rfl
    · have hno := hend seller hseller
      rw [← hside, hbuy, ← hprice] at hno
      have hlt := hno hsell
      simp only [Side.accepts, decide_eq_true_eq] at hlt
      exact Int64.not_le.1 hlt
    · rw [hbuy] at hsell
      cases hsell

theorem Priced.of_knows (h : f.Priced) (hg : ∀ m ∈ g.resting, f.Knows m) : g.Priced := by
  intro m hm
  obtain ⟨m', hm', heq⟩ := hg m hm
  rw [heq]
  exact h m' hm'

theorem Priced.of_follows (h : f.Priced) (hg : f.Follows o g) (ho : 0 < o.price) : g.Priced := by
  rcases hg with hg | ⟨l, last, hg, hkept, hlast, -⟩
  · exact h.of_knows hg
  intro m hm
  rw [hg, List.mem_append, List.mem_singleton] at hm
  rcases hm with hm | rfl
  · obtain ⟨m', hm', heq⟩ := hkept m hm
    rw [heq]
    exact h m' hm'
  · rw [hlast]
    exact ho

theorem Uncrossed.move (h : f.Uncrossed) (hf : f.Tidy) {m : Move} (hm : ∀ o, m ≠ .call (.add o)) :
    (f.move m).Uncrossed := by
  rcases hf.move_cases m hm with hold | ⟨o, hfollows, -⟩
  · exact h.of_knows hold
  · exact h.of_follows hfollows

theorem Priced.move (h : f.Priced) (hf : f.Tidy) {m : Move} (hm : ∀ o, m ≠ .call (.add o))
    (hprice : ∀ o, m = .call (.submit o) → 0 < o.price) : (f.move m).Priced := by
  rcases hf.move_cases m hm with hold | ⟨o, hfollows, hpos | heq⟩
  · exact h.of_knows hold
  · exact h.of_follows hfollows hpos
  · exact h.of_follows hfollows (hprice o heq)

/-! ## Best prices -/

/-- The best price of a side is the price of an order that rests there. -/
theorem exists_of_best? (h : f.best? side = some p) :
    ∃ o ∈ f.resting, o.side = side ∧ o.price = p := by
  obtain ⟨o, ho, rfl⟩ := List.mem_map.1 (List.mem_of_find?_eq_some h)
  obtain ⟨hmem, hside⟩ := List.mem_filter.1 ho
  exact ⟨o, hmem, of_decide_eq_true hside, rfl⟩

/-- The best price of a side has a quote. -/
theorem exists_quote?_of_best? (h : f.best? side = some p) :
    ∃ q, f.quote? side p = some q ∧ q.price = p := by
  obtain ⟨o, ho, rfl, rfl⟩ := exists_of_best? h
  have hne : f.ordersAt o.side o.price ≠ [] :=
    List.ne_nil_of_mem (a := o) (List.mem_filter.2 ⟨ho, by simp⟩)
  rw [quote?, if_neg hne]
  exact ⟨_, rfl, rfl⟩

theorem spread?_of_best? (hbid : f.best? .buy = some bid) (hask : f.best? .sell = some ask) :
    f.top.spread? = some (ask - bid) := by
  obtain ⟨q, hq, rfl⟩ := exists_quote?_of_best? hbid
  obtain ⟨r, hr, rfl⟩ := exists_quote?_of_best? hask
  rw [top, hbid, hask, Option.bind_some, Option.bind_some, hq, hr]
  rfl

end Plain

namespace Book

/-- Whatever a book is told besides adding orders, its orders stay tidy and uncrossed, and their
prices above zero if all that are submitted are. -/
theorem Shows.uncrossed_moves {b : Book} {f : Plain} (h : b.Shows f) (hf : f.Uncrossed)
    {ms : List Move} (hadd : ∀ o, .call (.add o) ∉ ms) :
    (f.moves ms).Uncrossed ∧
      (f.Priced → (∀ o, .call (.submit o) ∈ ms → 0 < o.price) → (f.moves ms).Priced) := by
  induction ms generalizing b f with
  | nil => exact ⟨hf, fun hpriced _ => hpriced⟩
  | cons m ms ih =>
    have hm : ∀ o, m ≠ .call (.add o) := by
      rintro o rfl
      exact hadd o List.mem_cons_self
    obtain ⟨huncrossed, hpriced⟩ := ih (h.move m) (hf.move h.tidy hm)
      fun o ho => hadd o (List.mem_cons_of_mem m ho)
    refine ⟨huncrossed, fun hp hsubmit => ?_⟩
    refine hpriced (hp.move h.tidy hm ?_) ?_
    · rintro o rfl
      exact hsubmit o List.mem_cons_self
    · exact fun o ho => hsubmit o (List.mem_cons_of_mem m ho)

/-- **A book is never crossed.** After any commands and calls, in any order, to a book of any
bound, none of which adds an order without trading it, the highest bid is lower than the lowest
offer. The spread is at least one unless their distance is too far to be a price; with prices above
zero, which is what commands have, it is the distance. -/
theorem bid_lt_ask (o : Opening) (ms : List Move) (hadd : ∀ o, .call (.add o) ∉ ms)
    {bid ask : Price} (hbid : (o.book.moves ms).best? .buy = some bid)
    (hask : (o.book.moves ms).best? .sell = some ask) :
    bid < ask ∧
      ∃ spread, (o.book.moves ms).top.spread? = some spread ∧
        (1 ≤ spread ↔ ask.toInt - bid.toInt ≤ Int64.maxValue.toInt) ∧
        ((∀ o, .call (.submit o) ∈ ms → 0 < o.price) →
          1 ≤ spread ∧ spread.toInt = ask.toInt - bid.toInt) := by
  have hshows := (shows_opening o).moves ms
  have hempty : o.plain.resting = [] := by
    cases o <;> rfl
  have hnone : ∀ m ∈ o.plain.resting, False := by
    rw [hempty]
    intro m hm
    cases hm
  obtain ⟨huncrossed, hpriced⟩ := (shows_opening o).uncrossed_moves
    (fun buyer hbuyer => (hnone buyer hbuyer).elim) hadd
  have hbid' : (o.plain.moves ms).best? .buy = some bid := (hshows.seek .buy).2 ▸ hbid
  have hask' : (o.plain.moves ms).best? .sell = some ask := (hshows.seek .sell).2 ▸ hask
  obtain ⟨buyer, hbuyer, hbuy, rfl⟩ := Plain.exists_of_best? hbid'
  obtain ⟨seller, hseller, hsell, rfl⟩ := Plain.exists_of_best? hask'
  have hlt := huncrossed buyer hbuyer seller hseller hbuy hsell
  refine ⟨hlt, seller.price - buyer.price, ?_, Price.one_le_sub_iff hlt, fun hsubmit => ?_⟩
  · show (seekTop _).2.spread? = _
    rw [hshows.seekTop.2, TopOfBook.spread?_map]
    exact Plain.spread?_of_best? hbid' hask'
  · have hpos := hpriced (fun m hm => (hnone m hm).elim) hsubmit buyer hbuyer
    have hspread := Qty.toInt_sub hpos (Int64.le_of_lt hlt)
    refine ⟨?_, hspread⟩
    rw [Int64.lt_iff_toInt_lt] at hlt
    rw [Int64.le_iff_toInt_le, hspread, Int64.toInt_one]
    omega

/-- A buyer takes part of an offer, later orders rest on both sides of the price, and one of them
is refused. -/
def tradedMoves : List Move :=
  [.command { action := .submit { id := 1, user := 1, side := .sell, price := 10, qty := 5 } },
   .call (.submit { id := 2, user := 1, side := .buy, price := 12, qty := 3 }),
   .command { action := .submit { id := 1, user := 1, side := .buy, price := 11, qty := 3 } },
   .call (.trade { id := 3, user := 1, side := .buy, price := 9, qty := 3 }),
   .command { action := .submit { id := 4, user := 1, side := .buy, price := 8, qty := 3 } }]

theorem bid_lt_ask_tradedMoves :
    (8 : Price) < 10 ∧
      ∃ spread, ((Opening.bounded 3).book.moves tradedMoves).top.spread? = some spread ∧
        (1 ≤ spread ↔ (10 : Price).toInt - (8 : Price).toInt ≤ Int64.maxValue.toInt) ∧
        ((∀ o, .call (.submit o) ∈ tradedMoves → 0 < o.price) →
          1 ≤ spread ∧ spread.toInt = (10 : Price).toInt - (8 : Price).toInt) :=
  bid_lt_ask (.bounded 3) tradedMoves (by simp [tradedMoves]) (by decide +kernel)
    (by decide +kernel)

/-- A buyer and a seller at the two ends of what a price can be. No command would bring the buyer
to the book. -/
def farMoves : List Move :=
  [.call (.submit { id := 1, user := 1, side := .buy, price := Int64.minValue, qty := 1 }),
   .call (.submit { id := 2, user := 1, side := .sell, price := Int64.maxValue, qty := 1 })]

/-- Too far apart, the best prices have a spread below zero. -/
theorem spread_wraps_farMoves :
    (∀ o, .call (.add o) ∉ farMoves) ∧
      (({} : Book).moves farMoves).best? .buy = some Int64.minValue ∧
      (({} : Book).moves farMoves).best? .sell = some Int64.maxValue ∧
      (({} : Book).moves farMoves).top.spread? = some (-1) ∧
      ¬ ∃ spread, (({} : Book).moves farMoves).top.spread? = some spread ∧ 1 ≤ spread := by
  have hspread : (({} : Book).moves farMoves).top.spread? = some (-1) := by decide +kernel
  refine ⟨by simp [farMoves], by decide +kernel, by decide +kernel, hspread, ?_⟩
  rintro ⟨spread, hsome, hone⟩
  obtain rfl := Option.some.inj (hspread.symm.trans hsome)
  exact absurd hone (by decide)

end Book

end Bourse
