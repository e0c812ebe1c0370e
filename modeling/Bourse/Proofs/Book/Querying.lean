import Bourse.Proofs.Book.Resting

/-!
# Queries

Whatever is asked of a book is answered from its levels, its index and its pool. A book that
shows a plain book answers as that one does, which looks through its list.
-/

namespace Bourse

/-- Two lists without repetition that have the same members are equally long. -/
theorem length_eq_of_mem_iff {α : Type} {l r : List α} (hl : l.Nodup) (hr : r.Nodup)
    (h : ∀ x, x ∈ l ↔ x ∈ r) : l.length = r.length :=
  ((List.perm_ext_iff_of_nodup hl hr).2 h).length_eq

/-- What only one member of a list satisfies is found. -/
theorem find?_eq_some_of_unique {α : Type} {p : α → Bool} {l : List α} {x : α} (hx : x ∈ l)
    (hp : p x) (h : ∀ y ∈ l, p y → y = x) : l.find? p = some x := by
  cases hf : l.find? p with
  | none =>
    have := List.find?_eq_none.1 hf x hx
    exact absurd hp this
  | some y => rw [h y (List.mem_of_find?_eq_some hf) (List.find?_some hf)]

namespace Book

/-- The plain book with the orders of the given entries. -/
def plain (b : Book) (es : List Entry) : Plain where
  bound := b.pool.limit
  resting := orders es

/-- A book and a plain book have the same orders in the same order of arrival. -/
def Shows (b : Book) (f : Plain) : Prop :=
  ∃ es, b.Holds es ∧ f = b.plain es

variable {b : Book} {f : Plain} {es : List Entry}

/-- A new book shows an empty list. -/
theorem shows_empty (limit : Nat) : ({ pool := { limit } } : Book).Shows { bound := limit } :=
  ⟨[], holds_empty limit, rfl⟩

/-! ## Single orders -/

theorem Shows.contains (h : b.Shows f) (id : OrderId) : b.contains id = f.contains id := by
  obtain ⟨es, hes, rfl⟩ := h
  rw [Bool.eq_iff_iff, hes.contains]
  simp [Plain.contains, plain, orders]

theorem Shows.isFull (h : b.Shows f) : b.isFull = f.isFull := by
  obtain ⟨es, hes, rfl⟩ := h
  rw [Bool.eq_iff_iff, Book.isFull, hes.pool.isFull]
  simp [Plain.isFull, plain]

theorem Shows.size (h : b.Shows f) : b.size = f.resting.length := by
  obtain ⟨es, hes, rfl⟩ := h
  have hlen : b.index.keys.length = (es.map (·.2.id)).length := by
    refine length_eq_of_mem_iff Std.TreeMap.nodup_keys hes.distinct fun id => ?_
    rw [Std.TreeMap.mem_keys, ← Std.TreeMap.contains_iff_mem]
    show b.contains id ↔ _
    rw [hes.contains]
    simp
  rw [Std.TreeMap.length_keys, List.length_map] at hlen
  rw [Book.size, hlen]
  simp [plain]

theorem Shows.order? (h : b.Shows f) (id : OrderId) : b.order? id = f.order? id := by
  obtain ⟨es, hes, rfl⟩ := h
  rw [Book.order?, Plain.order?]
  cases hi : b.index[id]? with
  | none =>
    symm
    rw [Option.bind_none, List.find?_eq_none]
    intro o hm ho
    obtain ⟨e, he, rfl⟩ := List.mem_map.1 hm
    have hs := (hes.index id e.1).2 ⟨e.2, he, by simpa using ho⟩
    rw [hi] at hs
    cases hs
  | some s =>
    obtain ⟨o, hm, rfl⟩ := (hes.index id s).1 hi
    symm
    rw [Option.bind_some, (hes.pool.orders s o).2 hm]
    refine find?_eq_some_of_unique (List.mem_map.2 ⟨(s, o), hm, rfl⟩) (by simp) ?_
    intro o' hm' hid
    obtain ⟨e, he, rfl⟩ := List.mem_map.1 hm'
    rw [hes.eq_of_id he hm (by simpa using hid)]

theorem Shows.order?_eq (h : b.Shows f) : b.order? = f.order? :=
  funext h.order?

/-! ## Levels -/

/-- The orders of a level are those at its price. -/
theorem orders_queue (b : Book) (es : List Entry) (side : Side) (price : Price) :
    orders (queue side (side.rank price) es) = (b.plain es).ordersAt side price := by
  show orders (es.filter _) = (orders es).filter _
  rw [orders, orders, List.filter_map]
  congr 1
  refine List.filter_congr fun e _ => ?_
  rw [Bool.eq_iff_iff]
  simp only [decide_eq_true_eq, Function.comp_apply, Bool.and_eq_true]
  constructor
  · rintro ⟨rfl, hr⟩
    exact ⟨rfl, e.2.side.rank_injective hr⟩
  · rintro ⟨rfl, rfl⟩
    exact ⟨rfl, rfl⟩

/-- A level is there for the orders at its price, and only if there are some. -/
theorem Holds.level? (h : b.Holds es) (side : Side) (price : Price) :
    (b.level? side price = none ∧ (b.plain es).ordersAt side price = []) ∨
      ∃ l, b.level? side price = some l ∧ l.price = price ∧
        l.Holds b.pool (queue side (side.rank price) es) ∧
        (b.plain es).ordersAt side price ≠ [] := by
  rw [← orders_queue]
  cases hl : b.level? side price with
  | none =>
    left
    refine ⟨rfl, ?_⟩
    have hm : side.rank price ∉ (b.ladder side).levels := by
      rw [Std.TreeMap.mem_iff_isSome_getElem?]
      show ¬ (b.level? side price).isSome
      rw [hl]
      exact Bool.false_ne_true
    rw [(h.ladder side).present, not_not] at hm
    rw [hm]
    rfl
  | some l =>
    right
    obtain ⟨hlevel, hprice⟩ := (h.ladder side).level _ _ hl
    refine ⟨l, rfl, side.rank_injective hprice, hlevel, ?_⟩
    have hm : side.rank price ∈ (b.ladder side).levels :=
      Std.TreeMap.mem_iff_isSome_getElem?.2 (Option.isSome_of_eq_some hl)
    have hne := ((h.ladder side).present _).1 hm
    exact fun heq => hne (List.map_eq_nil_iff.1 heq)

theorem Shows.quote? (h : b.Shows f) (side : Side) (price : Price) :
    b.quote? side price = (f.quote? side price).map (Quote.map Int64.ofInt) := by
  obtain ⟨es, hes, rfl⟩ := h
  rw [Book.quote?, Plain.quote?]
  rcases hes.level? side price with ⟨hl, ho⟩ | ⟨l, hl, rfl, hlevel, ho⟩
  · rw [hl, ho]
    rfl
  · rw [hl, if_neg ho, ← orders_queue]
    simp [Level.quote, Quote.map, hlevel.total, hlevel.count]

/-- Following a queue through the pool reads the orders of its entries. -/
theorem Holds.ordersIn (h : b.Holds es) {l : Level} {side : Side} {rank : Int}
    (hl : l.Holds b.pool (queue side rank es)) :
    b.ordersIn l = orders (queue side rank es) := by
  have hlen : (slots (queue side rank es)).length ≤ b.pool.allocated := by
    rw [h.pool.allocated]
    have hle := (slots_queue_sublist side rank es).length_le
    rw [slots, slots, List.length_map, List.length_map] at hle
    rw [slots, List.length_map]
    omega
  rw [Book.ordersIn, hl.head, hl.linked.queueFrom hlen, slots, List.filterMap_map, orders,
    ← List.filterMap_eq_map]
  refine List.filterMap_congr fun e he => ?_
  exact (h.pool.orders e.1 e.2).2 (mem_queue.1 he).1

theorem Shows.ordersAt (h : b.Shows f) (side : Side) (price : Price) :
    b.ordersAt side price = f.ordersAt side price := by
  obtain ⟨es, hes, rfl⟩ := h
  rw [Book.ordersAt]
  rcases hes.level? side price with ⟨hl, ho⟩ | ⟨l, hl, -, hlevel, -⟩
  · rw [hl, ho]
    rfl
  · rw [hl, Option.map_some, Option.getD_some, hes.ordersIn hlevel, orders_queue]

theorem Shows.depth (h : b.Shows f) (side : Side) : b.depth side = f.depth side := by
  obtain ⟨es, hes, rfl⟩ := h
  have hlen : (b.ladder side).levels.keys.length =
      (((b.plain es).prices side).dedup.map side.rank).length := by
    refine length_eq_of_mem_iff Std.TreeMap.nodup_keys ?_ fun rank => ?_
    · exact (List.nodup_dedup _).map_on fun p _ q _ => side.rank_injective
    · rw [Std.TreeMap.mem_keys, (hes.ladder side).present]
      simp only [List.mem_map, List.mem_dedup, Plain.prices, plain, orders, List.mem_filter,
        decide_eq_true_eq, ne_eq, ← List.isEmpty_iff, List.isEmpty_eq_false_iff_exists_mem,
        Bool.not_eq_true, mem_queue]
      constructor
      · rintro ⟨e, he, rfl, rfl⟩
        exact ⟨e.2.price, ⟨e.2, ⟨⟨e, he, rfl⟩, rfl⟩, rfl⟩, rfl⟩
      · rintro ⟨p, ⟨o, ⟨⟨e, he, rfl⟩, rfl⟩, rfl⟩, rfl⟩
        exact ⟨e, he, rfl, rfl⟩
  rw [Std.TreeMap.length_keys, List.length_map] at hlen
  exact hlen

/-! ## Best prices -/

/-- A book after a search holds what it held. -/
theorem Holds.search (h : b.Holds es) (side : Side) :
    (b.setLadder side (b.ladder side).search.1).Holds es := by
  have hset (side' : Side) :=
    h.setLadder (Frame.refl : Frame side 0 _ _ _ _) ((h.ladder side).search).1 side'
  refine ⟨⟨?_, ?_, h.distinct⟩, h.positive, ?_⟩
  · exact (pool_setLadder b side _).symm ▸ h.pool
  · exact (index_setLadder b side _).symm ▸ h.index
  · exact fun side' => (pool_setLadder b side (b.ladder side).search.1).symm ▸ hset side'

theorem Shows.seek (h : b.Shows f) (side : Side) :
    (b.seek side).1.Shows f ∧ (b.seek side).2 = f.best? side := by
  obtain ⟨es, hes, rfl⟩ := h
  obtain ⟨-, hnone, hsome⟩ := (hes.ladder side).search
  refine ⟨⟨es, hes.search side, ?_⟩, ?_⟩
  · simp [plain, Book.seek]
  · show (b.ladder side).search.2.map (·.2.price) = _
    cases hf : (b.ladder side).search.2 with
    | none =>
      have hp : (b.plain es).prices side = [] := by
        simp only [Plain.prices, plain, List.map_eq_nil_iff, List.filter_eq_nil_iff,
          decide_eq_true_eq]
        intro o ho
        obtain ⟨e, he, rfl⟩ := List.mem_map.1 ho
        exact hnone hf e he
      rw [Plain.best?, hp]
      rfl
    | some found =>
      obtain ⟨-, hl, hbest⟩ := hsome found.1 found.2 hf
      have hprice := ((hes.ladder side).level _ _ hl).2
      have hbest (q : Price) (hq : q ∈ (b.plain es).prices side) :
          side.rank found.2.price ≤ side.rank q := by
        obtain ⟨o, ho, rfl⟩ := List.mem_map.1 hq
        obtain ⟨hm, hs⟩ := List.mem_filter.1 ho
        obtain ⟨e, he, rfl⟩ := List.mem_map.1 hm
        obtain rfl : e.2.side = side := by simpa using hs
        rw [hprice]
        exact hbest e he rfl
      have hmem : found.2.price ∈ (b.plain es).prices side := by
        have hne := ((hes.ladder side).present found.1).1
          (Std.TreeMap.mem_iff_isSome_getElem?.2 (Option.isSome_of_eq_some hl))
        obtain ⟨e, he⟩ := List.exists_mem_of_ne_nil _ hne
        obtain ⟨hm, rfl, hr⟩ := mem_queue.1 he
        refine List.mem_map.2 ⟨e.2, List.mem_filter.2 ⟨List.mem_map.2 ⟨e, hm, rfl⟩, by simp⟩, ?_⟩
        exact e.2.side.rank_injective (hr.trans hprice.symm)
      -- The best price is one that no other is better than, and there is only one such.
      symm
      refine find?_eq_some_of_unique hmem ?_ fun q hq hall => ?_
      · exact List.all_eq_true.2 fun q hq => Plain.leads_iff.2 (hbest q hq)
      · have hle := Plain.leads_iff.1 (List.all_eq_true.1 hall _ hmem)
        exact side.rank_injective (Int.le_antisymm hle (hbest q hq))

theorem Shows.seekTop (h : b.Shows f) :
    b.seekTop.1.Shows f ∧ b.seekTop.2 = f.top.map Int64.ofInt := by
  have hbid := h.seek .buy
  have hask := hbid.1.seek .sell
  refine ⟨hask.1, ?_⟩
  show ({ bid := (b.seek .buy).2.bind ((b.seek .buy).1.quote? .buy)
          ask := ((b.seek .buy).1.seek .sell).2.bind
            (((b.seek .buy).1.seek .sell).1.quote? .sell) } : TopOfBook) = _
  rw [hbid.2, hask.2, Plain.top, TopOfBook.map, Option.map_bind, Option.map_bind]
  congr 1
  · congr 1
    exact funext fun p => hbid.1.quote? .buy p
  · congr 1
    exact funext fun p => hask.1.quote? .sell p

/-! ## Adding and removing -/

theorem Shows.add? (h : b.Shows f) (o : Order) : Option.Rel Shows (b.add? o) (f.add? o) := by
  have hid := h.contains o.id
  have hf := h.isFull
  rw [Plain.add?, ← hid, ← hf]
  by_cases hq : o.isFilled
  · have hq' : o.qty ≤ 0 := by simpa [Order.isFilled] using hq
    rw [if_pos (by simp [hq']), Book.add?, if_pos (by simp [hq])]
    exact .none
  by_cases hc : b.contains o.id
  · rw [if_pos (by simp [hc]), Book.add?, if_pos (by simp [hc])]
    exact .none
  by_cases hfull : b.isFull
  · rw [if_pos (by simp [hfull]), Book.add?, if_neg (by simp [hq, hc]),
      Pool.acquire?_of_isFull hfull]
    exact .none
  · obtain ⟨es, hes, rfl⟩ := h
    obtain ⟨s, b', hadd, hb', hlim⟩ := hes.add? hq hc hfull
    have hq' : ¬ o.qty ≤ 0 := by simpa [Order.isFilled] using hq
    rw [hadd, if_neg (by simp [hq', hc, hfull])]
    refine .some ⟨_, hb', ?_⟩
    simp [plain, hlim, orders]

theorem Shows.cancel? (h : b.Shows f) (id : OrderId) :
    Option.Rel Shows (b.cancel? id) (f.cancel? id) := by
  rw [Plain.cancel?, ← h.contains]
  by_cases hc : b.contains id
  · obtain ⟨es, hes, rfl⟩ := h
    obtain ⟨e, he, rfl⟩ := (hes.contains id).1 hc
    obtain ⟨pre, post, rfl⟩ := List.append_of_mem he
    obtain ⟨b', hcancel, hb', hlim⟩ := hes.cancel?
    rw [hcancel, if_pos hc]
    refine .some ⟨_, hb', ?_⟩
    have hne := ne_of_nodup_map hes.distinct
    rw [plain, plain, hlim, orders_append, orders_append, orders_cons, List.filter_append,
      List.filter_cons_of_neg (by simp), List.filter_eq_self.2, List.filter_eq_self.2]
    · intro o ho
      obtain ⟨x, hx, rfl⟩ := List.mem_map.1 ho
      simpa using hne x (List.mem_append_right _ hx)
    · intro o ho
      obtain ⟨x, hx, rfl⟩ := List.mem_map.1 ho
      simpa using hne x (List.mem_append_left _ hx)
  · have hi : b.index[id]? = none := by
      cases hi : b.index[id]? with
      | none => rfl
      | some s =>
        rw [Book.contains, Std.TreeMap.contains_eq_isSome_getElem?, hi] at hc
        exact absurd rfl hc
    rw [if_neg hc, Book.cancel?, hi]
    exact .none

end Book

end Bourse
