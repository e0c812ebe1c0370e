import Mathlib.Data.List.Find
import Mathlib.Data.List.MinMax
import Bourse.Proofs.Book.Refinement

/-!
# The way of a taker

What a taker does to a plain book, one trade after the other. `Passes` says what holds of it at
any point of its way: who has given and who has got how much, what still rests, and that each
trade so far was made with an order that rested at that moment. One trade keeps it, hence so does
the whole way, at the end of which no order that the taker could trade with is left.
-/

namespace Bourse

/-- Less than a quantity leaves something of it. -/
theorem Qty.sub_pos {a b : Qty} (ha : 0 < a) (hlt : ¬ b ≤ a) : 0 < b - a := by
  have hle : a ≤ b := by
    rw [Int64.le_iff_toInt_le] at hlt ⊢
    omega
  have hsub := Qty.toInt_sub ha hle
  rw [Int64.le_iff_toInt_le] at hlt
  rw [Int64.lt_iff_toInt_lt, Int64.toInt_zero]
  omega

/-! ## Sums of trades -/

namespace Trade

/-- The quantities of some trades in sum. -/
def lots : List Trade → Int
  | [] => 0
  | t :: trades => t.qty.toInt + lots trades

@[simp] theorem lots_nil : lots [] = 0 := rfl

@[simp] theorem lots_cons (t : Trade) (ts : List Trade) : lots (t :: ts) = t.qty.toInt + lots ts :=
  rfl

@[simp] theorem lots_append (ts us : List Trade) : lots (ts ++ us) = lots ts + lots us := by
  induction ts with
  | nil => simp
  | cons t ts ih =>
    simp only [List.cons_append, lots_cons, ih]
    omega

/-- What an order gave as the maker of some trades. -/
def given (id : OrderId) (trades : List Trade) : Int :=
  lots (trades.filter (·.maker = id))

/-- What an order got as the taker of some trades. -/
def taken (id : OrderId) (trades : List Trade) : Int :=
  lots (trades.filter (·.taker = id))

@[simp] theorem given_nil (id : OrderId) : given id [] = 0 := rfl

theorem given_append (id : OrderId) (ts us : List Trade) :
    given id (ts ++ us) = given id ts + given id us := by
  rw [given, List.filter_append, lots_append]
  rfl

theorem given_singleton (id : OrderId) (t : Trade) :
    given id [t] = if t.maker = id then t.qty.toInt else 0 := by
  by_cases h : t.maker = id
  · simp [given, h]
  · simp [given, h]

/-- An order that is the taker of all trades got all of their lots. -/
theorem taken_eq_lots {id : OrderId} {ts : List Trade} (h : ∀ t ∈ ts, t.taker = id) :
    taken id ts = lots ts := by
  rw [taken, List.filter_eq_self.2]
  intro t ht
  exact decide_eq_true (h t ht)

theorem taken_eq_zero {id : OrderId} {ts : List Trade} (h : ∀ t ∈ ts, t.taker ≠ id) :
    taken id ts = 0 := by
  rw [taken, List.filter_eq_nil_iff.2, lots_nil]
  intro t ht
  simpa using h t ht

/-- A trade is made with an order of the other side at just its price, which the taker accepts,
and takes no more than what earlier trades have left of that order. -/
structure Fair (resting : OrderId → Option Order) (o : Order) (past : List Trade)
    (t : Trade) : Prop where
  taker : t.taker = o.id
  positive : 0 < t.qty
  maker : ∃ m, resting t.maker = some m ∧ m.side = o.side.opposite ∧ m.price = t.price ∧
    given t.maker past + t.qty.toInt ≤ m.qty.toInt
  accepts : o.side.accepts o.price t.price

end Trade

namespace Plain

/-! ## Orders by their ids -/

/-- Every order rests with something to trade and under an id of its own. -/
structure Tidy (b : Plain) : Prop where
  positive : ∀ o ∈ b.resting, 0 < o.qty
  distinct : (b.resting.map (·.id)).Nodup

/-- An order that rests there, but for its quantity. -/
def Knows (b : Plain) (m : Order) : Prop :=
  ∃ m' ∈ b.resting, m = { m' with qty := m.qty }

variable {b f g : Plain} {o m maker : Order} {id : OrderId} {qty : Qty}

theorem knows_of_mem (h : m ∈ b.resting) : b.Knows m :=
  ⟨m, h, rfl⟩

/-- What rests in one book was in another one before. -/
theorem Knows.trans (h : f.Knows m) (hfg : ∀ m ∈ f.resting, g.Knows m) : g.Knows m := by
  obtain ⟨m', hm', hsame⟩ := h
  obtain ⟨m'', hm'', hsame'⟩ := hfg m' hm'
  refine ⟨m'', hm'', ?_⟩
  rw [hsame, hsame']

theorem contains_eq_isSome (b : Plain) (id : OrderId) : b.contains id = (b.order? id).isSome := by
  rw [Bool.eq_iff_iff, order?, List.find?_isSome, contains, List.any_eq_true]

theorem order?_eq_none (h : f.contains id = false) : f.order? id = none := by
  rw [contains_eq_isSome, Option.isSome_eq_false_iff, Option.isNone_iff_eq_none] at h
  exact h

theorem of_order?_eq_some (h : b.order? id = some o) : o ∈ b.resting ∧ o.id = id :=
  ⟨List.mem_of_find?_eq_some h, by simpa using List.find?_some h⟩

theorem Tidy.eq_of_id (h : b.Tidy) (ho : o ∈ b.resting) (hm : m ∈ b.resting)
    (heq : o.id = m.id) : o = m :=
  List.inj_on_of_nodup_map h.distinct ho hm heq

theorem Tidy.order?_eq_some (h : b.Tidy) (ho : o ∈ b.resting) : b.order? o.id = some o := by
  refine find?_eq_some_of_unique ho (decide_eq_true rfl) ?_
  intro m hm hid
  exact h.eq_of_id hm ho (of_decide_eq_true hid)

/-! ## Deductions -/

/-- What a deduction leaves was there before, as it is or with more. -/
theorem mem_deduct (h : m ∈ (b.deduct id qty).resting) :
    ∃ o ∈ b.resting, m = { o with qty := m.qty } ∧
      (m = o ∨ ¬ o.qty ≤ qty ∧ m.qty = o.qty - qty) := by
  obtain ⟨o, ho, hm⟩ := List.mem_filterMap.1 h
  refine ⟨o, ho, ?_⟩
  by_cases hid : o.id ≠ id
  · rw [if_pos hid] at hm
    cases hm
    exact ⟨rfl, .inl rfl⟩
  · rw [if_neg hid] at hm
    by_cases hle : o.qty ≤ qty
    · rw [if_pos hle] at hm
      cases hm
    · rw [if_neg hle] at hm
      cases hm
      exact ⟨rfl, .inr ⟨hle, rfl⟩⟩

/-- No order comes in or changes places. -/
theorem ids_deduct_sublist (b : Plain) (id : OrderId) (qty : Qty) :
    ((b.deduct id qty).resting.map (·.id)).Sublist (b.resting.map (·.id)) := by
  rw [deduct]
  induction b.resting with
  | nil => exact .slnil
  | cons o l ih =>
    rw [List.filterMap_cons]
    by_cases hid : o.id ≠ id
    · rw [if_pos hid]
      exact ih.cons_cons o.id
    · rw [if_neg hid]
      by_cases hle : o.qty ≤ qty
      · rw [if_pos hle]
        exact ih.cons o.id
      · rw [if_neg hle]
        exact ih.cons_cons o.id

theorem Tidy.deduct (h : b.Tidy) (hq : 0 < qty) : (b.deduct id qty).Tidy where
  positive m hm := by
    obtain ⟨o, ho, -, rfl | ⟨hlt, hqty⟩⟩ := mem_deduct hm
    · exact h.positive m ho
    · rw [hqty]
      exact Qty.sub_pos hq hlt
  distinct := h.distinct.sublist (ids_deduct_sublist b id qty)

/-- All orders before and behind one of them have other ids. -/
theorem Tidy.exists_around (h : b.Tidy) (hm : maker ∈ b.resting) :
    ∃ pre post, b.resting = pre ++ maker :: post ∧ ∀ o ∈ pre ++ post, o.id ≠ maker.id := by
  obtain ⟨pre, post, heq⟩ := List.append_of_mem hm
  refine ⟨pre, post, heq, fun o ho hid => ?_⟩
  have hd := h.distinct
  rw [heq, List.map_append, List.map_cons, List.nodup_middle, List.nodup_cons,
    ← List.map_append] at hd
  exact hd.1 (List.mem_map.2 ⟨o, ho, hid⟩)

/-- The order that is deducted from has less or is gone, and no other one changes. -/
theorem Tidy.order?_deduct (h : b.Tidy) (hm : maker ∈ b.resting) (id : OrderId) :
    (b.deduct maker.id qty).order? id =
      if maker.id = id then
        if maker.qty ≤ qty then none else some { maker with qty := maker.qty - qty }
      else b.order? id := by
  obtain ⟨bound, resting⟩ := b
  obtain ⟨pre, post, rfl, hne⟩ := h.exists_around hm
  have hpre : pre.find? (·.id = maker.id) = none := by
    refine List.find?_eq_none.2 fun o ho => ?_
    simpa using hne o (List.mem_append_left _ ho)
  have hpost : post.find? (·.id = maker.id) = none := by
    refine List.find?_eq_none.2 fun o ho => ?_
    simpa using hne o (List.mem_append_right _ ho)
  rw [deduct_around hne, Plain.order?, Plain.order?]
  by_cases hid : maker.id = id
  · subst hid
    by_cases hle : maker.qty ≤ qty
    · simp [hle, hpre, hpost]
    · simp [hle, hpre]
  · by_cases hle : maker.qty ≤ qty
    · simp [hle, hid]
    · simp [hle, hid]

/-! ## Orders to trade with -/

theorem mem_opposing : m ∈ b.opposing o ↔
    m ∈ b.resting ∧ m.side = o.side.opposite ∧ o.side.accepts o.price m.price := by
  simp [opposing]

/-- Before the first order there are only worse ones, and none is better behind it. -/
theorem split_of_first? {l : List Order} (h : first? l = some o) :
    ∃ pre post, l = pre ++ o :: post ∧ (∀ m ∈ pre, o.rank < m.rank) ∧
      ∀ m ∈ post, o.rank ≤ m.rank := by
  rw [first?, List.find?_eq_some_iff_append] at h
  obtain ⟨hbest, pre, post, rfl, hpre⟩ := h
  rw [List.all_eq_true] at hbest
  have hle : ∀ m ∈ pre ++ o :: post, o.rank ≤ m.rank :=
    fun m hm => of_decide_eq_true (hbest m hm)
  refine ⟨pre, post, rfl, fun m hm => ?_, fun m hm => hle m (by simp [hm])⟩
  -- An order that was passed over is worse than some other one, hence worse than the first.
  have hnot := hpre m hm
  rw [Bool.not_eq_true', List.all_eq_false] at hnot
  obtain ⟨m', hm', hlt⟩ := hnot
  have hlt' : ¬ m.rank ≤ m'.rank := fun hle' => hlt (decide_eq_true hle')
  have hfirst := hle m' hm'
  omega

/-- The first member that comes before all of them stays the first where the comparisons do. -/
theorem find?_all_map {α β : Type} {l : List α} {g : α → β} {r : α → α → Bool}
    {r' : β → β → Bool} (h : ∀ x ∈ l, ∀ y ∈ l, r' (g x) (g y) = r x y) :
    ((l.map g).find? fun x => (l.map g).all (r' x)) = (l.find? fun x => l.all (r x)).map g := by
  rw [List.find?_map]
  congr 1
  refine List.find?_congr fun x hx => ?_
  rw [Function.comp_apply, List.all_map, Bool.eq_iff_iff, List.all_eq_true, List.all_eq_true]
  refine forall₂_congr fun y hy => ?_
  rw [Function.comp_apply, h x hx y hy]

/-- The first order stays the first if no order changes its rank. -/
theorem first?_map {l : List Order} {g : Order → Order} (h : ∀ o ∈ l, (g o).rank = o.rank) :
    first? (l.map g) = (first? l).map g :=
  find?_all_map fun o ho m hm => by rw [h o ho, h m hm]

/-- The first order is one of them, and none is better. -/
theorem le_of_first? {l : List Order} (h : first? l = some o) :
    o ∈ l ∧ ∀ m ∈ l, o.rank ≤ m.rank := by
  obtain ⟨pre, post, rfl, hpre, hpost⟩ := split_of_first? h
  refine ⟨by simp, fun m hm => ?_⟩
  rcases List.mem_append.1 hm with hm | hm
  · exact Int.le_of_lt (hpre m hm)
  · rcases List.mem_cons.1 hm with rfl | hm
    · exact Int.le_refl _
    · exact hpost m hm

namespace Sweep

/-! ## One trade -/

variable {s t : Sweep}

/-- A trade is made with the best of the orders that the taker could trade with, over all that the
taker wants or all that the maker has. -/
theorem first?_of_step? (h : s.step? = some t) :
    0 < s.taker.qty ∧ ∃ maker, first? (s.book.opposing s.taker) = some maker ∧
      t = { book := s.book.deduct maker.id (min s.taker.qty maker.qty)
            taker := { s.taker with qty := s.taker.qty - min s.taker.qty maker.qty }
            trades := s.trades ++
              [{ maker := maker.id, taker := s.taker.id, price := maker.price
                 qty := min s.taker.qty maker.qty }] } := by
  rw [step?] at h
  by_cases hq : s.taker.qty ≤ 0
  · rw [if_pos hq] at h
    cases h
  · rw [if_neg hq] at h
    obtain ⟨maker, hfirst, rfl⟩ := Option.map_eq_some_iff.1 h
    exact ⟨Int64.not_le.1 hq, maker, hfirst, rfl⟩

/-- It is one of the other side whose price the taker accepts. -/
theorem exists_maker_of_step? (h : s.step? = some t) :
    0 < s.taker.qty ∧ ∃ maker ∈ s.book.resting, maker.side = s.taker.side.opposite ∧
      s.taker.side.accepts s.taker.price maker.price ∧
      t = { book := s.book.deduct maker.id (min s.taker.qty maker.qty)
            taker := { s.taker with qty := s.taker.qty - min s.taker.qty maker.qty }
            trades := s.trades ++
              [{ maker := maker.id, taker := s.taker.id, price := maker.price
                 qty := min s.taker.qty maker.qty }] } := by
  obtain ⟨hpos, maker, hfirst, heq⟩ := first?_of_step? h
  obtain ⟨hmem, hside, hacc⟩ := mem_opposing.1 (le_of_first? hfirst).1
  exact ⟨hpos, maker, hmem, hside, hacc, heq⟩

/-- A taker that wants something trades with the first order that there is. -/
theorem step?_of_first? (hpos : 0 < s.taker.qty)
    (hfirst : first? (s.book.opposing s.taker) = some maker)
    (hqty : min s.taker.qty maker.qty = qty) :
    s.step? = some
      { book := s.book.deduct maker.id qty
        taker := { s.taker with qty := s.taker.qty - qty }
        trades := s.trades ++
          [{ maker := maker.id, taker := s.taker.id, price := maker.price, qty }] } := by
  subst hqty
  rw [step?, if_neg (Int64.not_le.2 hpos), hfirst]
  rfl

/-- Of some orders one is the first. -/
theorem exists_first? {l : List Order} (h : l ≠ []) : ∃ o, first? l = some o := by
  cases hmin : l.argmin Order.rank with
  | none => exact absurd (List.argmin_eq_none.1 hmin) h
  | some o =>
    refine Option.isSome_iff_exists.1 (List.find?_isSome.2 ⟨o, List.argmin_mem hmin, ?_⟩)
    rw [List.all_eq_true]
    intro m hm
    exact decide_eq_true (List.le_of_mem_argmin hm hmin)

/-- A taker stops when it is filled, or when nothing that it could trade with is left. -/
theorem step?_eq_none_iff : s.step? = none ↔ s.taker.qty ≤ 0 ∨ s.book.opposing s.taker = [] := by
  rw [step?]
  by_cases hq : s.taker.qty ≤ 0
  · simp [hq]
  · rw [if_neg hq, Option.map_eq_none_iff, or_iff_right hq]
    constructor
    · intro hnone
      by_contra hne
      obtain ⟨o, ho⟩ := exists_first? hne
      rw [hnone] at ho
      cases ho
    · intro hnil
      rw [hnil]
      rfl

theorem done_of_step?_eq_none (h : s.step? = none) :
    s.taker.qty ≤ 0 ∨ ∀ m ∈ s.book.resting, m.side = s.taker.side.opposite →
      ¬ s.taker.side.accepts s.taker.price m.price := by
  refine (step?_eq_none_iff.1 h).imp_right fun hnil m hm hside hacc => ?_
  have hopp := mem_opposing.2 ⟨hm, hside, hacc⟩
  rw [hnil] at hopp
  cases hopp

/-- What every trade keeps holds at the end, where no trade is left to make. -/
theorem run_induct {P : Sweep → Prop} (hstep : ∀ s t, P s → s.step? = some t → P t) (hs : P s) :
    P s.run ∧ s.run.step? = none := by
  fun_induction run s with
  | case1 s hnone => exact ⟨hs, hnone⟩
  | case2 s t hsome ih => exact ih (hstep s t hs hsome)

/-- A taker keeps the trades that it has made. -/
theorem trades_prefix_run (s : Sweep) : s.trades <+: s.run.trades := by
  refine (run_induct (P := fun t => s.trades <+: t.trades) ?_ (List.prefix_refl _)).1
  intro t t' hprefix hstep
  obtain ⟨-, maker, -, -, -, rfl⟩ := exists_maker_of_step? hstep
  exact hprefix.trans (List.prefix_append ..)

end Sweep

/-! ## The whole way -/

/-- What holds of a taker on its way through a book `f`, into which it came as the order `o`. -/
structure Passes (f : Plain) (o : Order) (s : Sweep) : Prop where
  tidy : s.book.Tidy
  bound : s.book.bound = f.bound
  size : s.book.resting.length ≤ f.resting.length
  /-- The taker differs in its quantity at most. -/
  taker : s.taker = { o with qty := s.taker.qty }
  /-- No trade takes more than the taker wants. -/
  nonneg : 0 ≤ o.qty → 0 ≤ s.taker.qty
  /-- What rests has rested before, but for its quantity. -/
  kept : ∀ m ∈ s.book.resting, f.Knows m
  /-- The taker has got what it no longer wants. -/
  taken : o.qty.toInt = Trade.lots s.trades + s.taker.qty.toInt
  /-- Every order has given what it no longer has. -/
  given : ∀ id, Order.lots (f.order? id).toList =
    Trade.given id s.trades + Order.lots (s.book.order? id).toList
  fair : ∀ past t next, s.trades = past ++ t :: next → t.Fair f.order? o past

/-- It is the taker of all trades on its way. -/
theorem Passes.taker_of_mem {s : Sweep} (h : f.Passes o s) {t : Trade} (ht : t ∈ s.trades) :
    t.taker = o.id := by
  obtain ⟨past, next, heq⟩ := List.append_of_mem ht
  exact (h.fair past t next heq).taker

theorem Passes.refl (h : f.Tidy) (o : Order) : f.Passes o { book := f, taker := o } where
  tidy := h
  bound := rfl
  size := Nat.le_refl _
  taker := rfl
  nonneg hq := hq
  kept _ hm := knows_of_mem hm
  taken := (Int.zero_add _).symm
  given id := (Int.zero_add _).symm
  fair past t next heq := by
    have hlen := congrArg List.length heq
    simp at hlen

/-- The last of some trades, or one before it. -/
theorem split_concat {α : Type} {l past next : List α} {x y : α}
    (h : l ++ [x] = past ++ y :: next) : (past = l ∧ y = x) ∨ ∃ more, l = past ++ y :: more := by
  rcases List.eq_nil_or_concat next with rfl | ⟨more, z, rfl⟩
  · obtain ⟨hl, hx⟩ := List.append_inj' h rfl
    exact .inl ⟨hl.symm, (List.cons.inj hx).1.symm⟩
  · rw [List.concat_eq_append, ← List.cons_append, ← List.append_assoc] at h
    exact .inr ⟨more, (List.append_inj' h rfl).1⟩

/-- A maker gives what is taken from it, and no other order gives anything. -/
theorem Tidy.given_deduct (h : b.Tidy) (hm : maker ∈ b.resting) (hq : 0 < qty)
    (hle : qty ≤ maker.qty) {t : Trade} (ht : t.maker = maker.id) (htq : t.qty = qty)
    (id : OrderId) :
    Order.lots (b.order? id).toList =
      Trade.given id [t] + Order.lots ((b.deduct maker.id qty).order? id).toList := by
  rw [h.order?_deduct hm, Trade.given_singleton, ht, htq]
  by_cases heq : maker.id = id
  · subst heq
    rw [if_pos rfl, if_pos rfl, h.order?_eq_some hm]
    by_cases hall : maker.qty ≤ qty
    · have hsame : maker.qty = qty := Int64.le_antisymm hall hle
      rw [if_pos hall, ← hsame]
      simp [Order.lots]
    · have hsub := Qty.toInt_sub hq hle
      rw [if_neg hall]
      simp only [Option.toList_some, Order.lots, hsub]
      omega
  · rw [if_neg heq, if_neg heq, Int.zero_add]

/-- A trade with an order that rests is a fair one, whatever was taken from that order before. -/
theorem Passes.fair_maker {s : Sweep} (h : f.Passes o s) (hf : f.Tidy)
    (hmem : maker ∈ s.book.resting) (hside : maker.side = o.side.opposite)
    (hacc : o.side.accepts o.price maker.price) (hq : 0 < qty) (hle : qty ≤ maker.qty) :
    Trade.Fair f.order? o s.trades
      { maker := maker.id, taker := o.id, price := maker.price, qty } := by
  obtain ⟨m, hm, hsame⟩ := h.kept maker hmem
  have hm' : f.order? maker.id = some m := by
    rw [hsame]
    exact hf.order?_eq_some hm
  have hgiven := h.given maker.id
  rw [hm', h.tidy.order?_eq_some hmem] at hgiven
  refine ⟨rfl, hq, ⟨m, hm', ?_, ?_, ?_⟩, hacc⟩
  · rw [← hside, hsame]
  · rw [hsame]
  · rw [Int64.le_iff_toInt_le] at hle
    simp only [Option.toList_some, Order.lots] at hgiven ⊢
    omega

/-- One trade on the way. -/
theorem Passes.step {s t : Sweep} (h : f.Passes o s) (hf : f.Tidy) (hstep : s.step? = some t) :
    f.Passes o t := by
  obtain ⟨hpos, maker, hmem, hside, hacc, rfl⟩ := Sweep.exists_maker_of_step? hstep
  have hmaker := h.tidy.positive maker hmem
  generalize hqty : min s.taker.qty maker.qty = qty
  obtain ⟨hq, hqt, hqm, -⟩ := Book.Sweep.qty_spec hpos hmaker hqty.symm
  have hsub := Qty.toInt_sub hq hqt
  have hid : s.taker.id = o.id := by rw [h.taker]
  rw [h.taker] at hside hacc
  refine ⟨h.tidy.deduct hq, h.bound, ?_, ?_, ?_, ?_, ?_, ?_, ?_⟩
  · exact (List.length_filterMap_le _ _).trans h.size
  · show ({ s.taker with qty := s.taker.qty - qty } : Order) = { o with qty := s.taker.qty - qty }
    rw [h.taker]
  · intro ho
    rw [Int64.le_iff_toInt_le] at hqt ⊢
    rw [Int64.toInt_zero, hsub]
    omega
  · intro m hm
    obtain ⟨m', hm', hsame, -⟩ := mem_deduct hm
    exact Knows.trans ⟨m', hm', hsame⟩ h.kept
  · have htaken := h.taken
    dsimp only
    rw [Trade.lots_append, Trade.lots_cons, Trade.lots_nil, hsub]
    dsimp only
    omega
  · intro id
    dsimp only
    rw [h.given id, Trade.given_append, Int.add_assoc]
    congr 1
    exact h.tidy.given_deduct hmem hq hqm rfl rfl id
  · intro past t next heq
    rcases split_concat heq with ⟨rfl, rfl⟩ | ⟨more, hmore⟩
    · rw [hid]
      exact h.fair_maker hf hmem hside hacc hq hqm
    · exact h.fair past t more hmore

/-- The whole way of a taker, and its end. -/
theorem Tidy.passes_trade (h : f.Tidy) (o : Order) :
    f.Passes o (f.trade o) ∧ ((f.trade o).taker.qty ≤ 0 ∨
      ∀ m ∈ (f.trade o).book.resting, m.side = o.side.opposite →
        ¬ o.side.accepts o.price m.price) := by
  have hstep : ∀ s t, f.Passes o s → s.step? = some t → f.Passes o t :=
    fun s t hs hst => hs.step h hst
  obtain ⟨hpasses, hnone⟩ := Sweep.run_induct hstep (.refl h o)
  refine ⟨hpasses, ?_⟩
  have hdone := Sweep.done_of_step?_eq_none hnone
  rw [hpasses.taker] at hdone
  exact hdone

/-- No id comes into the book on the way. -/
theorem Passes.contains {s : Sweep} (h : f.Passes o s) (hid : f.contains id = false) :
    s.book.contains id = false := by
  rw [Plain.contains, List.any_eq_false] at hid ⊢
  intro m hm
  obtain ⟨m', hm', hsame⟩ := h.kept m hm
  rw [hsame]
  exact hid m' hm'

/-- An order on the way is the one that rested under its id before, but for its quantity. -/
theorem Passes.order?_kept {s : Sweep} (h : f.Passes o s) (hf : f.Tidy) {m' : Order}
    (hm : f.order? id = some m) (hm' : s.book.order? id = some m') :
    m' = { m with qty := m'.qty } := by
  obtain ⟨hmem, rfl⟩ := of_order?_eq_some hm'
  obtain ⟨m'', hm'', hsame⟩ := h.kept m' hmem
  have hfound := hf.order?_eq_some hm''
  rw [hsame] at hm
  rw [hfound] at hm
  cases hm
  exact hsame

/-- No place is lost while an order trades, so what is left of one without a namesake can rest. -/
theorem Passes.add? {s : Sweep} (h : f.Passes o s) (hid : f.contains o.id = false)
    (hfull : f.isFull = false) (hq : ¬ s.taker.qty ≤ 0) :
    s.book.add? s.taker = some { s.book with resting := s.book.resting ++ [s.taker] } := by
  have hid' : s.book.contains s.taker.id = false := by
    rw [h.taker]
    exact h.contains hid
  have hfull' : s.book.isFull = false := by
    have hsize := h.size
    simp only [Plain.isFull, decide_eq_false_iff_not, h.bound] at hfull ⊢
    omega
  rw [Plain.add?, if_neg]
  simp [hq, hid', hfull']

end Plain

/-- The orders of a book are tidy. -/
theorem Book.Shows.tidy {b : Book} {f : Plain} (h : b.Shows f) : f.Tidy := by
  obtain ⟨es, hes, rfl⟩ := h
  refine ⟨?_, ?_⟩
  · intro o ho
    obtain ⟨e, he, rfl⟩ := List.mem_map.1 ho
    exact hes.positive e he
  · have hdistinct := hes.distinct
    rw [plain, orders, List.map_map]
    exact hdistinct

end Bourse
