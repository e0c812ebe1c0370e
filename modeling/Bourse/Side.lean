/-!
# The two sides of a market

A `Side` says whether an order buys or sells. `Side.rank` turns a price into a number that is
smaller the better the price is for the counterparty, so that one ordering serves both sides:
the best bid is the highest price, the best offer the lowest, and both have the least rank.
-/

namespace Bourse

/-- Whether an order buys or sells. -/
inductive Side where
  | buy
  | sell
deriving DecidableEq, Repr, Inhabited

namespace Side

/-- The side an order on `s` trades with. -/
def opposite : Side → Side
  | buy => sell
  | sell => buy

/-- The letter that stands for a side in text records. -/
def toChar : Side → Char
  | buy => 'B'
  | sell => 'S'

/-- Reads the letter of a side; case matters. -/
def ofChar? (c : Char) : Option Side :=
  if c = 'B' then some buy else if c = 'S' then some sell else none

/-- The byte that stands for a side in binary records. -/
def toByte : Side → UInt8
  | buy => 1
  | sell => 2

/-- Reads the byte of a side. -/
def ofByte? (b : UInt8) : Option Side :=
  if b = 1 then some buy else if b = 2 then some sell else none

/-- Position of a price on its side: the better the price for whoever trades with it, the
smaller the rank. The most negative price has a rank as well, because ranks are unbounded. -/
def rank (s : Side) (price : Int64) : Int :=
  match s with
  | buy => -price.toInt
  | sell => price.toInt

/-- Whether a taker on side `s` with limit `limit` accepts to trade at `price`: a buyer pays at
most its limit, a seller receives at least its limit. -/
def accepts (s : Side) (limit price : Int64) : Bool :=
  match s with
  | buy => price ≤ limit
  | sell => limit ≤ price

theorem rank_injective (s : Side) {p q : Int64} (h : s.rank p = s.rank q) : p = q := by
  apply Int64.toInt_inj.1
  cases s with
  | buy => exact Int.neg_inj.1 h
  | sell => exact h

@[simp] theorem opposite_opposite (s : Side) : s.opposite.opposite = s := by
  cases s <;> rfl

@[simp] theorem ofChar?_toChar (s : Side) : ofChar? s.toChar = some s := by
  cases s <;> decide

/-- A letter stands for one side. -/
theorem toChar_of_ofChar? {c : Char} {s : Side} (h : ofChar? c = some s) : s.toChar = c := by
  rw [ofChar?] at h
  split at h
  · next hc =>
    obtain rfl := Option.some.inj h
    exact hc.symm
  · split at h
    · next hc =>
      obtain rfl := Option.some.inj h
      exact hc.symm
    · cases h

@[simp] theorem ofByte?_toByte (s : Side) : ofByte? s.toByte = some s := by
  cases s <;> decide

end Side

end Bourse
