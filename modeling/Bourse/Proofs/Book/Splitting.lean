import Bourse.Proofs.Book.Finishing

/-!
# Takers in two parts

A taker may as well come in two parts, one right after the other. The first part stops between two
trades or within one: `Plain.Sweep.joins_run` goes along with it and compares, at every trade, what
the taker does that wants both. Where a trade was cut in two, `Trade.merge` puts it together again,
as no maker is named twice by a taker that comes as a whole.
-/

namespace Bourse

/-! ## Sums and parts of quantities -/

namespace Qty

variable {a b c k : Qty}

/-- Two quantities whose sum is one do not wrap around. -/
theorem toInt_add (ha : 0 < a) (hb : 0 < b) (h : a.toInt + b.toInt ≤ Int64.maxValue.toInt) :
    (a + b).toInt = a.toInt + b.toInt := by
  rw [Int64.lt_iff_toInt_lt, Int64.toInt_zero] at ha hb
  rw [Int64.toInt_maxValue] at h
  rw [Int64.toInt_add, Int.bmod_eq_of_le] <;> omega

theorem add_pos (ha : 0 < a) (hb : 0 < b) (h : a.toInt + b.toInt ≤ Int64.maxValue.toInt) :
    0 < a + b := by
  have hadd := toInt_add ha hb h
  rw [Int64.lt_iff_toInt_lt, Int64.toInt_zero] at ha hb ⊢
  omega

/-- Two parts of a quantity. -/
theorem toInt_add_of_le_sub (ha : 0 < a) (hb : 0 < b) (hac : a ≤ c) (hbc : b ≤ c - a) :
    (a + b).toInt = a.toInt + b.toInt := by
  have hsub := toInt_sub ha hac
  have hmax := c.toInt_le
  rw [Int64.le_iff_toInt_le] at hbc
  refine toInt_add ha hb ?_
  omega

/-- Of a quantity that exceeds the first of two wants, the second one gets what is left. -/
theorem min_add (ha : 0 < a) (hb : 0 < b) (hfit : a.toInt + b.toInt ≤ Int64.maxValue.toInt)
    (hle : a ≤ c) (hk : min b (c - a) = k) : min (a + b) c = a + k := by
  have hadd := toInt_add ha hb hfit
  have hsub := toInt_sub ha hle
  subst hk
  by_cases h : b ≤ c - a
  · rw [min_eq_left h]
    refine min_eq_left ?_
    rw [Int64.le_iff_toInt_le] at h ⊢
    omega
  · have hc : c ≤ a + b := by
      rw [Int64.le_iff_toInt_le] at h ⊢
      omega
    rw [min_eq_right (Int64.le_of_lt (Int64.not_le.1 h)), min_eq_right hc]
    grind

end Qty

/-! ## Cut trades -/

namespace Trade

/-- Neighbouring trades with the same maker become one, over the lots of both. -/
def merge : List Trade → List Trade
  | [] => []
  | t :: ts =>
    match merge ts with
    | [] => [t]
    | u :: us => if t.maker = u.maker then { t with qty := t.qty + u.qty } :: us else t :: u :: us

/-- The same trades, but that one of them may be cut in two. -/
def Cut (parts whole : List Trade) : Prop :=
  parts = whole ∨ ∃ pre t q r post,
    parts = pre ++ { t with qty := q } :: { t with qty := r } :: post ∧
      whole = pre ++ t :: post ∧ t.qty = q + r ∧ t.qty.toInt = q.toInt + r.toInt

variable {parts whole ts us : List Trade} {t u : Trade}

/-- A trade is left alone if the next one has another maker. -/
theorem merge_cons (hm : merge ts = us) (hne : t.maker ∉ us.map (·.maker)) :
    merge (t :: ts) = t :: us := by
  rw [merge, hm]
  cases us with
  | nil => rfl
  | cons u us => exact if_neg (List.ne_of_not_mem_cons hne)

/-- Where no maker is named twice there is nothing to merge. -/
theorem merge_of_nodup (h : (ts.map (·.maker)).Nodup) : merge ts = ts := by
  induction ts with
  | nil => rfl
  | cons t ts ih =>
    obtain ⟨hnot, hd⟩ := List.nodup_cons.1 h
    exact merge_cons (ih hd) hnot

/-- What was cut is put together again. -/
theorem Cut.merge (h : Cut parts whole) (hd : (whole.map (·.maker)).Nodup) :
    Trade.merge parts = whole := by
  obtain rfl | ⟨pre, t, q, r, post, rfl, rfl, hqty, -⟩ := h
  · exact merge_of_nodup hd
  · induction pre with
    | nil =>
      have hpost : Trade.merge ({ t with qty := r } :: post) = { t with qty := r } :: post :=
        merge_of_nodup hd
      rw [List.nil_append, Trade.merge, hpost, List.nil_append]
      dsimp only
      rw [if_pos rfl, ← hqty]
    | cons p pre ih =>
      obtain ⟨hnot, hd⟩ := List.nodup_cons.1 hd
      exact merge_cons (ih hd) hnot

/-- The lots are the same in sum. -/
theorem Cut.lots (h : Cut parts whole) : Trade.lots parts = Trade.lots whole := by
  obtain rfl | ⟨pre, t, q, r, post, rfl, rfl, -, hqty⟩ := h
  · rfl
  · simp only [lots_append, lots_cons, hqty]
    omega

/-- Trades with the same maker are alike but for their lots. -/
theorem Cut.alike (h : Cut parts whole) (hd : (whole.map (·.maker)).Nodup) (ht : t ∈ parts)
    (hu : u ∈ parts) (hmaker : t.maker = u.maker) : u = { t with qty := u.qty } := by
  have hpart (t : Trade) (ht : t ∈ parts) : ∃ w ∈ whole, t = { w with qty := t.qty } := by
    obtain rfl | ⟨pre, w, q, r, post, rfl, rfl, -⟩ := h
    · exact ⟨t, ht, rfl⟩
    · simp only [List.mem_append, List.mem_cons] at ht ⊢
      rcases ht with hpre | rfl | rfl | hpost
      · exact ⟨t, .inl hpre, rfl⟩
      · exact ⟨w, .inr (.inl rfl), rfl⟩
      · exact ⟨w, .inr (.inl rfl), rfl⟩
      · exact ⟨t, .inr (.inr hpost), rfl⟩
  obtain ⟨w, hw, htw⟩ := hpart t ht
  obtain ⟨w', hw', huw⟩ := hpart u hu
  rw [htw, huw] at hmaker
  obtain rfl := List.inj_on_of_nodup_map hd hw hw' hmaker
  rw [huw, htw]

end Trade

namespace Plain

variable {b : Plain} {taker maker : Order} {id : OrderId} {q r : Qty}

/-! ## Deductions that leave something -/

/-- An order of which so much is deducted, if it is the one with the id. -/
def deducted (id : OrderId) (q : Qty) (o : Order) : Order :=
  if o.id = id then { o with qty := o.qty - q } else o

theorem deducted_rank (id : OrderId) (q : Qty) (o : Order) : (deducted id q o).rank = o.rank := by
  rw [deducted]
  split <;> rfl

/-- Nobody leaves if there is more than what is deducted. -/
theorem deduct_resting (h : ∀ o ∈ b.resting, o.id = id → ¬ o.qty ≤ q) :
    (b.deduct id q).resting = b.resting.map (deducted id q) := by
  rw [deduct, ← List.filterMap_eq_map]
  refine List.filterMap_congr fun o ho => ?_
  rw [Function.comp_apply, deducted]
  by_cases hid : o.id = id
  · rw [if_neg (not_not.2 hid), if_neg (h o ho hid), if_pos hid]
  · rw [if_pos hid, if_neg hid]

/-- The maker stays the first, with less. -/
theorem first?_deduct (h : ∀ o ∈ b.resting, o.id = maker.id → ¬ o.qty ≤ q)
    (hfirst : first? (b.opposing taker) = some maker) :
    first? ((b.deduct maker.id q).opposing taker) =
      some { maker with qty := maker.qty - q } := by
  have hopp : (b.deduct maker.id q).opposing taker =
      (b.opposing taker).map (deducted maker.id q) := by
    rw [opposing, deduct_resting h, List.filter_map]
    congr 1
    refine List.filter_congr fun o _ => ?_
    rw [Function.comp_apply, deducted]
    split <;> rfl
  rw [hopp, first?_map fun o _ => deducted_rank maker.id q o, hfirst, Option.map_some, deducted,
    if_pos rfl]

/-- Two deductions from an order that has enough for the first are one. -/
theorem Tidy.deduct_deduct (h : b.Tidy) (hm : maker ∈ b.resting) (hq : 0 < q) (hr : 0 < r)
    (hlt : ¬ maker.qty ≤ q) (hle : r ≤ maker.qty - q) :
    (b.deduct maker.id q).deduct maker.id r = b.deduct maker.id (q + r) := by
  have hqm : q ≤ maker.qty := Int64.le_of_lt (Int64.not_le.1 hlt)
  have hsub := Qty.toInt_sub hq hqm
  have hadd := Qty.toInt_add_of_le_sub hq hr hqm hle
  have huse : maker.qty - q ≤ r ↔ maker.qty ≤ q + r := by
    rw [Int64.le_iff_toInt_le, Int64.le_iff_toInt_le]
    omega
  have hmaker (o : Order) (ho : o ∈ b.resting) (hid : o.id = maker.id) : o = maker :=
    h.eq_of_id ho hm hid
  have hleft : ∀ o ∈ b.resting, o.id = maker.id → ¬ o.qty ≤ q := by
    intro o ho hid
    rwa [hmaker o ho hid]
  rw [Plain.deduct, deduct_resting hleft, List.filterMap_map, Plain.deduct, Plain.deduct]
  congr 1
  refine List.filterMap_congr fun o ho => ?_
  rw [Function.comp_apply, deducted]
  by_cases hid : o.id = maker.id
  · obtain rfl := hmaker o ho hid
    rw [if_pos rfl, if_neg (not_not.2 rfl), if_neg (not_not.2 rfl)]
    dsimp only
    by_cases hall : o.qty ≤ q + r
    · rw [if_pos (huse.2 hall), if_pos hall]
    · rw [if_neg (mt huse.1 hall), if_neg hall]
      congr 2
      grind
  · rw [if_neg hid, if_pos hid, if_pos hid]

namespace Sweep

variable {s t : Sweep}

/-! ## Earlier trades -/

/-- With other trades made before. -/
def since (ts : List Trade) (s : Sweep) : Sweep :=
  { s with trades := ts ++ s.trades }

theorem step?_since (ts : List Trade) (s : Sweep) :
    (s.since ts).step? = s.step?.map (since ts) := by
  rw [step?, step?, since]
  dsimp only
  by_cases hq : s.taker.qty ≤ 0
  · rw [if_pos hq, if_pos hq]
    rfl
  · rw [if_neg hq, if_neg hq, Option.map_map]
    congr 1
    funext maker
    rw [List.append_assoc]
    rfl

/-- Earlier trades play no part. -/
theorem run_since (ts : List Trade) (s : Sweep) : (s.since ts).run = s.run.since ts := by
  fun_induction run s with
  | case1 s hnone =>
    refine run_of_none ?_
    rw [step?_since, hnone]
    rfl
  | case2 s t hsome ih =>
    have hstep : (s.since ts).step? = some (t.since ts) := by
      rw [step?_since, hsome]
      rfl
    rw [← Book.Sweep.run_of_step? hstep, ih]

/-! ## The second part -/

/-- A taker that wants so much more. -/
def more (s : Sweep) (r : Qty) : Sweep :=
  { s with taker := { s.taker with qty := s.taker.qty + r } }

/-- A taker that now wants so much. -/
def again (s : Sweep) (r : Qty) : Sweep :=
  { s with taker := { s.taker with qty := r } }

/-- Two parts of a taker, the second one behind the first, come to what the taker comes to. -/
structure Joins (first second whole : Sweep) : Prop where
  book : second.book = whole.book
  rest : whole.taker.qty.toInt = first.taker.qty.toInt + second.taker.qty.toInt
  trades : Trade.Cut second.trades whole.trades

/-- Where the first part uses up a maker, the taker that wants more does so, too. -/
theorem step?_more (hr : 0 < r) (hfit : s.taker.qty.toInt + r.toInt ≤ Int64.maxValue.toInt)
    (hfirst : first? (s.book.opposing s.taker) = some maker) (hle : maker.qty ≤ s.taker.qty)
    (hstep : s.step? = some t) : (s.more r).step? = some (t.more r) := by
  obtain ⟨hpos, maker', hfirst', rfl⟩ := first?_of_step? hstep
  obtain rfl : maker = maker' := Option.some.inj (hfirst.symm.trans hfirst')
  have hsum := Qty.toInt_add hpos hr hfit
  have hmore : maker.qty ≤ s.taker.qty + r := by
    rw [Int64.lt_iff_toInt_lt, Int64.toInt_zero] at hr
    rw [Int64.le_iff_toInt_le] at hle ⊢
    omega
  rw [Qty.min_eq_right hle,
    step?_of_first? (s := s.more r) (Qty.add_pos hpos hr hfit) hfirst (Qty.min_eq_right hmore)]
  have hqty : s.taker.qty + r - maker.qty = s.taker.qty - maker.qty + r := by grind
  rw [more, more]
  dsimp only
  rw [hqty]

/-- The taker makes one trade of the last trade of its first part and the first trade of its second
part, and both go on in the same way. -/
theorem joins_of_cut {first second whole u : Sweep} {ts : List Trade} {t : Trade} {q k : Qty}
    (hfirst : first.taker.qty = 0)
    (hsecond : second.step? = some (u.since (ts ++ [{ t with qty := q }, { t with qty := k }])))
    (hwhole : whole.step? = some (u.since (ts ++ [t]))) (hqty : t.qty = q + k)
    (hsum : t.qty.toInt = q.toInt + k.toInt) : Joins first second.run whole.run := by
  rw [← Book.Sweep.run_of_step? hsecond, ← Book.Sweep.run_of_step? hwhole, run_since, run_since]
  refine ⟨rfl, ?_, .inr ⟨ts, t, q, k, u.run.trades, ?_, ?_, hqty, hsum⟩⟩
  · rw [hfirst, Int64.toInt_zero, Int.zero_add]
    rfl
  · simp [since]
  · simp [since]

/-- Where the first part is filled within a maker, the second part goes on with what that one has
left, and the taker that wants more takes both at once. -/
theorem joins_within (h : s.book.Tidy) (hr : 0 < r)
    (hfit : s.taker.qty.toInt + r.toInt ≤ Int64.maxValue.toInt)
    (hfirst : first? (s.book.opposing s.taker) = some maker) (hlt : ¬ maker.qty ≤ s.taker.qty)
    (hstep : s.step? = some t) : Joins t.run (t.run.again r).run (s.more r).run := by
  obtain ⟨hpos, maker', hfirst', ht⟩ := first?_of_step? hstep
  obtain rfl : maker = maker' := Option.some.inj (hfirst.symm.trans hfirst')
  have hmem : maker ∈ s.book.resting := (mem_opposing.1 (le_of_first? hfirst).1).1
  have hle : s.taker.qty ≤ maker.qty := Int64.le_of_lt (Int64.not_le.1 hlt)
  rw [Qty.min_eq_left hle] at ht
  have hfilled : t.taker.qty = 0 := by
    rw [ht]
    exact Int64.sub_self _
  have hdone : t.step? = none := step?_eq_none_iff.2 (.inl (Int64.le_of_eq hfilled))
  generalize hqty : min r (maker.qty - s.taker.qty) = k
  obtain ⟨hk, -, hkm, -⟩ := Book.Sweep.qty_spec hr (Qty.sub_pos hpos hlt) hqty.symm
  have hleft : ∀ o ∈ s.book.resting, o.id = maker.id → ¬ o.qty ≤ s.taker.qty := by
    intro o ho hid
    rwa [h.eq_of_id ho hmem hid]
  have hagain : first? ((t.again r).book.opposing (t.again r).taker) =
      some { maker with qty := maker.qty - s.taker.qty } := by
    rw [ht]
    exact first?_deduct hleft hfirst
  have hsecond := step?_of_first? (s := t.again r) hr hagain hqty
  have hwhole := step?_of_first? (s := s.more r) (Qty.add_pos hpos hr hfit) hfirst
    (Qty.min_add hpos hr hfit hle hqty)
  let cut : Trade :=
    { maker := maker.id, taker := s.taker.id, price := maker.price, qty := s.taker.qty + k }
  let u : Sweep :=
    { book := s.book.deduct maker.id (s.taker.qty + k), taker := { s.taker with qty := r - k } }
  rw [run_of_none hdone]
  have hjoins := @joins_of_cut t (t.again r) (s.more r) u s.trades cut s.taker.qty k hfilled
  refine hjoins (hsecond.trans ?_) (hwhole.trans ?_) rfl ?_
  · rw [ht]
    simp only [again, since, u, cut, h.deduct_deduct hmem hpos hk hlt hkm, List.append_assoc,
      List.cons_append, List.nil_append, List.append_nil]
  · have hrest : s.taker.qty + r - (s.taker.qty + k) = r - k := by grind
    simp only [more, since, u, cut, hrest, List.append_nil]
  · exact Qty.toInt_add_of_le_sub hpos hk hle hkm

/-- The way of the first part, along which each of its trades is one of the whole taker as well, but
for the last one. -/
theorem joins_run (s : Sweep) (h : s.book.Tidy) (hq : 0 ≤ s.taker.qty) (hr : 0 < r)
    (hfit : s.taker.qty.toInt + r.toInt ≤ Int64.maxValue.toInt) :
    Joins s.run (s.run.again r).run (s.more r).run := by
  fun_induction run s with
  | case1 s hnone =>
    by_cases hfilled : s.taker.qty ≤ 0
    · -- The first part wants nothing, and the second one is the taker itself.
      have hzero : s.taker.qty = 0 := Int64.le_antisymm hfilled hq
      have hsame : s.more r = s.again r := by rw [more, again, hzero, Int64.zero_add]
      rw [hsame]
      refine ⟨rfl, ?_, .inl rfl⟩
      rw [hzero, Int64.toInt_zero, Int.zero_add]
    · -- There is nobody, neither for the parts nor for the taker.
      have hnobody := (step?_eq_none_iff.1 hnone).resolve_left hfilled
      have hmore : (s.more r).step? = none := step?_eq_none_iff.2 (.inr hnobody)
      have hagain : (s.again r).step? = none := step?_eq_none_iff.2 (.inr hnobody)
      rw [run_of_none hmore, run_of_none hagain]
      exact ⟨rfl, Qty.toInt_add (Int64.not_le.1 hfilled) hr hfit, .inl rfl⟩
  | case2 s t hsome ih =>
    obtain ⟨hpos, maker, hfirst, ht⟩ := first?_of_step? hsome
    by_cases hle : maker.qty ≤ s.taker.qty
    · rw [← Book.Sweep.run_of_step? (step?_more hr hfit hfirst hle hsome)]
      have hmaker := h.positive maker (mem_opposing.1 (le_of_first? hfirst).1).1
      rw [Qty.min_eq_right hle] at ht
      have hsub := Qty.toInt_sub hmaker hle
      refine ih ?_ ?_ ?_
      · rw [ht]
        exact h.deduct hmaker
      · rw [ht, Int64.le_iff_toInt_le, Int64.toInt_zero]
        rw [Int64.le_iff_toInt_le] at hle
        dsimp only
        omega
      · rw [ht]
        rw [Int64.lt_iff_toInt_lt, Int64.toInt_zero] at hmaker
        dsimp only
        omega
    · exact joins_within h hr hfit hfirst hle hsome

end Sweep

variable {f : Plain}

/-- The second part comes into the book that the first one leaves. -/
theorem Tidy.joins_trade (h : f.Tidy) (taker : Order) (hq : 0 < q) (hr : 0 < r)
    (hfit : q.toInt + r.toInt ≤ Int64.maxValue.toInt) :
    Sweep.Joins (f.trade { taker with qty := q })
      (((f.trade { taker with qty := q }).book.trade { taker with qty := r }).since
        (f.trade { taker with qty := q }).trades)
      (f.trade { taker with qty := q + r }) := by
  have hjoins := Sweep.joins_run { book := f, taker := { taker with qty := q } } h
    (Int64.le_of_lt hq) hr hfit
  have hpasses := (h.passes_trade { taker with qty := q }).1
  rw [← trade] at hjoins
  generalize f.trade { taker with qty := q } = first at hjoins hpasses ⊢
  have hagain : first.again r =
      Sweep.since first.trades { book := first.book, taker := { taker with qty := r } } := by
    rw [Sweep.again, Sweep.since, hpasses.taker, List.append_nil]
  rw [hagain, Sweep.run_since] at hjoins
  exact hjoins

/-- What is left of a taker that came with something. -/
theorem Passes.rest_eq {s : Sweep} (h : f.Passes taker s) (hq : 0 < taker.qty) :
    s.rest = s.taker.qty := by
  have hle := h.nonneg (Int64.le_of_lt hq)
  rw [Sweep.rest, Qty.max_def]
  split
  · next hzero => exact Int64.le_antisymm hle hzero
  · rfl

end Plain

namespace Book

/-- One taker behind the other comes to what a single one comes to. -/
structure Sweep.Splits (first second whole : Sweep) : Prop where
  trades : Trade.merge (first.trades.toList ++ second.trades.toList) = whole.trades.toList
  /-- Trades that are merged are alike but for their lots. -/
  alike : ∀ t ∈ first.trades.toList, ∀ u ∈ second.trades.toList, t.maker = u.maker →
    u = { t with qty := u.qty }
  filled : Trade.lots first.trades.toList + Trade.lots second.trades.toList =
    Trade.lots whole.trades.toList
  rest : whole.rest.toInt = first.rest.toInt + second.rest.toInt
  /-- The books answer alike whatever is asked of them later on. -/
  book : ∀ calls, second.book.answers calls = whole.book.answers calls

variable {b : Book} {f : Plain} {q r : Qty}

theorem Shows.splits (h : b.Shows f) (taker : Order) (hq : 0 < q) (hr : 0 < r)
    (hfit : q.toInt + r.toInt ≤ Int64.maxValue.toInt) :
    Sweep.Splits (b.trade { taker with qty := q })
      ((b.trade { taker with qty := q }).book.trade { taker with qty := r })
      (b.trade { taker with qty := q + r }) := by
  obtain ⟨hbook₁, -, htrades₁, hrest₁⟩ := h.trade { taker with qty := q }
  obtain ⟨hbook₂, -, htrades₂, hrest₂⟩ := hbook₁.trade { taker with qty := r }
  obtain ⟨hbook, -, htrades, hrest⟩ := h.trade { taker with qty := q + r }
  have hjoins := h.tidy.joins_trade taker hq hr hfit
  have hd := (h.tidy.consumes_trade { taker with qty := q + r }).distinct
  rw [(h.tidy.passes_trade { taker with qty := q }).1.rest_eq hq] at hrest₁
  rw [(hbook₁.tidy.passes_trade { taker with qty := r }).1.rest_eq hr] at hrest₂
  rw [(h.tidy.passes_trade { taker with qty := q + r }).1.rest_eq (Qty.add_pos hq hr hfit)] at hrest
  refine ⟨?_, ?_, ?_, ?_, fun calls => ?_⟩
  · rw [htrades₁, htrades₂, htrades]
    exact hjoins.trades.merge hd
  · rw [htrades₁, htrades₂]
    intro t ht u hu
    exact hjoins.trades.alike hd (List.mem_append_left _ ht) (List.mem_append_right _ hu)
  · rw [htrades₁, htrades₂, htrades, ← Trade.lots_append]
    exact hjoins.trades.lots
  · rw [hrest₁, hrest₂, hrest]
    exact hjoins.rest
  · have hsame : _ = (f.trade { taker with qty := q + r }).book := hjoins.book
    rw [hbook.answers, ← hsame]
    exact hbook₂.answers calls

/-- **A taker may come in two parts.** In a book of any bound, after any commands and calls, a taker
that comes for some lots and then again for others trades as one that comes for all of them: the
trades are the same once those next to each other with the same maker are merged, as much is filled,
and the books that are left cannot be told apart. -/
theorem taker_splits (o : Opening) (ms : List Move) (taker : Order) (hq : 0 < q) (hr : 0 < r)
    (hfit : q.toInt + r.toInt ≤ Int64.maxValue.toInt) :
    let b := o.book.moves ms
    let first := b.trade { taker with qty := q }
    Sweep.Splits first (first.book.trade { taker with qty := r })
      (b.trade { taker with qty := q + r }) :=
  ((shows_opening o).moves ms).splits taker hq hr hfit

/-- Two offers, at two prices. -/
def offerMoves : List Move :=
  [.command { action := .submit { id := 1, user := 1, side := .sell, price := 10, qty := 5 } },
   .command { action := .submit { id := 2, user := 1, side := .sell, price := 11, qty := 5 } }]

/-- The first part ends within the first offer, and the second one, within the other. -/
theorem taker_splits_offerMoves :
    let b := ({} : Book).moves offerMoves
    let taker : Order := { id := 3, user := 2, side := .buy, price := 12, qty := 7 }
    let first := b.trade { taker with qty := 3 }
    let second := first.book.trade { taker with qty := 4 }
    first.trades.toList = [{ maker := 1, taker := 3, price := 10, qty := 3 }] ∧
      second.trades.toList =
        [{ maker := 1, taker := 3, price := 10, qty := 2 },
         { maker := 2, taker := 3, price := 11, qty := 2 }] ∧
      Sweep.Splits first second (b.trade { taker with qty := 3 + 4 }) :=
  ⟨by decide +kernel, by decide +kernel,
    taker_splits .new offerMoves { id := 3, user := 2, side := .buy, price := 12, qty := 7 }
      (q := 3) (r := 4) (by decide) (by decide) (by decide)⟩

end Book

end Bourse
