import Bourse.Side

/-!
# Orders and trades

A limit order carries the quantity it still wants; `Order.fill` takes a part of it. A `Trade`
records one execution between a resting order, the maker, and an arriving one, the taker.
-/

namespace Bourse

/-- Number that a client gives an order; zero means that none was given. -/
abbrev OrderId := UInt64

/-- Number of the user that owns an order. -/
abbrev UserId := UInt64

/-- Price in ticks. -/
abbrev Price := Int64

/-- Quantity in lots. -/
abbrev Qty := Int64

/-- A limit order with its remaining quantity. -/
structure Order where
  id : OrderId
  user : UserId
  side : Side
  price : Price
  qty : Qty
deriving DecidableEq, Repr, Inhabited

/-- One execution: `qty` lots change hands between a resting and an arriving order. -/
structure Trade where
  maker : OrderId
  taker : OrderId
  price : Price
  qty : Qty
deriving DecidableEq, Repr, Inhabited

namespace Order

/-- Position of the order's price on its side. -/
def rank (o : Order) : Int :=
  o.side.rank o.price

/-- Nothing is left to trade. -/
def isFilled (o : Order) : Bool :=
  o.qty ≤ 0

/-- The part of `wanted` that the order can give: never more than it holds, never less than
nothing. -/
def available (o : Order) (wanted : Qty) : Qty :=
  max (min wanted o.qty) 0

/-- Takes `wanted` lots from the order, or as many as it holds. -/
def fill (o : Order) (wanted : Qty) : Order :=
  { o with qty := o.qty - o.available wanted }

end Order

/-! ## Arithmetic of quantities -/

theorem Qty.min_def (a b : Qty) : min a b = if a ≤ b then a else b := rfl

theorem Qty.min_eq_left {a b : Qty} (h : a ≤ b) : min a b = a :=
  (Qty.min_def a b).trans (if_pos h)

theorem Qty.min_eq_right {a b : Qty} (h : b ≤ a) : min a b = b := by
  rw [Qty.min_def]
  split
  · next hle => exact Int64.le_antisymm hle h
  · rfl

theorem Qty.max_def (a b : Qty) : max a b = if a ≤ b then b else a := rfl

/-- A part taken from a quantity does not wrap around. -/
theorem Qty.toInt_sub {a b : Qty} (h : 0 < a) (hle : a ≤ b) :
    (b - a).toInt = b.toInt - a.toInt := by
  rw [Int64.lt_iff_toInt_lt, Int64.toInt_zero] at h
  rw [Int64.le_iff_toInt_le] at hle
  have := b.toInt_lt
  have := b.le_toInt
  rw [Int64.toInt_sub, Int.bmod_eq_of_le] <;> omega

/-- A number that a quantity can be. -/
def Qty.Fits (n : Int) : Prop :=
  Int64.minValue.toInt ≤ n ∧ n ≤ Int64.maxValue.toInt

instance (n : Int) : Decidable (Qty.Fits n) :=
  inferInstanceAs (Decidable (_ ∧ _))

theorem Qty.toInt_ofInt {n : Int} (h : Fits n) : (Int64.ofInt n).toInt = n := by
  have hmin : Int64.minValue.toInt = -2 ^ 63 := by decide
  have hmax : Int64.maxValue.toInt = 2 ^ 63 - 1 := by decide
  obtain ⟨hlo, hhi⟩ := h
  exact Int64.toInt_ofInt_of_le (by omega) (by omega)

/-- The quantities of some orders in sum. The sum has no bound. -/
def Order.lots : List Order → Int
  | [] => 0
  | o :: orders => o.qty.toInt + lots orders

@[simp] theorem Order.lots_append (l r : List Order) : lots (l ++ r) = lots l + lots r := by
  induction l with
  | nil => simp [lots]
  | cons o l ih =>
    simp only [List.cons_append, lots, ih]
    omega

/-- An order gives what it has. -/
theorem Order.fill_eq {o : Order} {qty : Qty} (h : 0 < qty) (hle : qty ≤ o.qty) :
    o.fill qty = { o with qty := o.qty - qty } := by
  have hav : o.available qty = qty := by
    unfold Order.available
    rw [Qty.max_def, Qty.min_def]
    grind
  rw [Order.fill, hav]

end Bourse
