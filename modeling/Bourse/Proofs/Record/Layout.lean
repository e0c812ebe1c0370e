import Bourse.Record.Layout

/-!
# Fields and their bytes

A record of fixed size is a list of values and a string of bytes at once. What is read from any
bytes of the right number is written back as these bytes (`Layout.write_read`). Putting a number in
the place of a field changes the value of that field and no other (`Layout.putNat_write`), and
leaving out the values of some fields clears their bytes and no others (`Layout.write_marked`).
-/

namespace Bourse

/-! ## Bytes in place of others -/

namespace Bytes

@[simp] theorem ofNat_zero (width : Nat) : ofNat width 0 = List.replicate width 0 := by
  induction width with
  | zero => rfl
  | succ width ih => rw [ofNat, Nat.zero_div, ih, List.replicate_succ]; rfl

/-- What stands in front is not touched. -/
theorem putNat_append (front b : Bytes) (offset width n : Nat) :
    putNat (front ++ b) (front.length + offset) width n = front ++ putNat b offset width n := by
  rw [putNat, putNat, List.take_length_add_append, Nat.add_assoc, List.drop_length_add_append]
  simp only [List.append_assoc]

/-- The marked bytes of a string, with zeros in place of the others. -/
def keep (mask : List Bool) (b : Bytes) : Bytes :=
  List.zipWith (fun used x => if used then x else 0) mask b

theorem keep_append {mask mask' : List Bool} {b b' : Bytes} (h : mask.length = b.length) :
    keep (mask ++ mask') (b ++ b') = keep mask b ++ keep mask' b' :=
  List.zipWith_append h

theorem keep_replicate (used : Bool) {width : Nat} {b : Bytes} (h : b.length = width) :
    keep (List.replicate width used) b = if used then b else List.replicate width 0 := by
  induction b generalizing width with
  | nil => subst h; cases used <;> rfl
  | cons x b ih =>
    subst h
    rw [List.length_cons, List.replicate_succ, keep, List.zipWith_cons_cons, ← keep, ih rfl]
    cases used <;> rfl

/-- A marked byte is kept. -/
theorem getElem?_keep_of_used {mask : List Bool} {b : Bytes} {i : Nat} (h : mask[i]? = some true) :
    (keep mask b)[i]? = b[i]? := by
  rw [keep, List.getElem?_zipWith, h]
  cases b[i]? <;> rfl

/-- Any other byte is cleared. -/
theorem getElem?_keep_of_unused {mask : List Bool} {b : Bytes} {i : Nat}
    (h : mask[i]? = some false) (hi : i < b.length) : (keep mask b)[i]? = some 0 := by
  rw [keep, List.getElem?_zipWith, h, List.getElem?_eq_getElem hi]
  rfl

/-- Nothing is lost exactly if all other bytes are zero. -/
theorem keep_eq_iff {mask : List Bool} {b : Bytes} (hlen : mask.length = b.length) :
    keep mask b = b ↔ ∀ i : Nat, mask[i]? = some false → b[i]? = some 0 := by
  constructor
  · intro h i hi
    have hb : i < b.length := by
      rw [← hlen]
      exact (List.getElem?_eq_some_iff.1 hi).1
    rw [← h]
    exact getElem?_keep_of_unused hi hb
  · intro h
    apply List.ext_getElem?
    intro i
    cases hi : mask[i]? with
    | none =>
      have hb : b[i]? = none := by
        rw [List.getElem?_eq_none_iff, ← hlen]
        exact List.getElem?_eq_none_iff.1 hi
      rw [keep, List.getElem?_zipWith, hi, hb]
    | some used =>
      cases used with
      | true => exact getElem?_keep_of_used hi
      | false =>
        rw [h i hi]
        exact getElem?_keep_of_unused hi (List.getElem?_eq_some_iff.1 (h i hi)).1

end Bytes

namespace Layout

theorem size_cons (w : Nat) (l : Layout) : size (w :: l) = w + l.size := rfl

/-! ## What was read is written back -/

theorem length_read (l : Layout) (b : Bytes) : (l.read b).length = l.length := by
  induction l generalizing b with
  | nil => rfl
  | cons w l ih => rw [read, List.length_cons, ih, List.length_cons]

theorem write_read {l : Layout} {b : Bytes} (h : b.length = l.size) : l.write (l.read b) = b := by
  induction l generalizing b with
  | nil => exact (List.length_eq_zero_iff.1 h).symm
  | cons w l ih =>
    rw [size_cons] at h
    have htake : (b.take w).length = w := by
      rw [List.length_take]
      omega
    have hrest : (b.drop w).length = size l := by
      rw [List.length_drop]
      omega
    have hfirst := Bytes.ofNat_value (b.take w)
    rw [htake] at hfirst
    rw [read, write, hfirst, ih hrest, List.take_append_drop]

/-! ## One field, and some of them -/

theorem write_zeros (l : Layout) :
    l.write (List.replicate l.length 0) = List.replicate l.size 0 := by
  induction l with
  | nil => rfl
  | cons w l ih =>
    rw [List.length_cons, List.replicate_succ, write, ih, Bytes.ofNat_zero, size_cons,
      List.replicate_append_replicate]

/-- Putting a number in the place of a field changes the value of that field. -/
theorem putNat_write (l : Layout) {values : List Nat} (hv : values.length = l.length) {i : Nat}
    (hi : i < l.length) (n : Nat) :
    (l.write values).putNat (size (l.take i)) (l.getD i 0) n = l.write (values.set i n) := by
  induction l generalizing values i with
  | nil => cases hi
  | cons w l ih =>
    cases values with
    | nil => cases hv
    | cons v values =>
      have hw : (Bytes.ofNat w v).length = w := Bytes.length_ofNat w v
      cases i with
      | zero =>
        show Bytes.putNat (Bytes.ofNat w v ++ write l values) 0 w n =
          Bytes.ofNat w n ++ write l values
        rw [Bytes.putNat, List.take_zero, List.nil_append, Nat.zero_add, List.drop_left' hw]
      | succ i =>
        show Bytes.putNat (Bytes.ofNat w v ++ write l values) (w + size (l.take i)) (l.getD i 0) n =
          Bytes.ofNat w v ++ write l (values.set i n)
        rw [← ih (Nat.succ.inj hv) (Nat.lt_of_succ_lt_succ hi), ← Bytes.putNat_append, hw]

/-- The bytes of the fields that are marked. -/
def mask (l : Layout) (used : List Bool) : List Bool :=
  (List.zipWith List.replicate l used).flatten

/-- The values of the marked fields, and zero for the others. -/
def marked (used : List Bool) (values : List Nat) : List Nat :=
  List.zipWith (fun used v => if used then v else 0) used values

/-- Writing only the marked fields keeps their bytes and clears the others. -/
theorem write_marked {l : Layout} {used : List Bool} {values : List Nat}
    (hu : used.length = l.length) (hv : values.length = l.length) :
    l.write (marked used values) = (l.write values).keep (l.mask used) := by
  induction l generalizing used values with
  | nil => cases used <;> rfl
  | cons w l ih =>
    cases used with
    | nil => cases hu
    | cons u used =>
    cases values with
    | nil => cases hv
    | cons v values =>
      have hlen : (List.replicate w u).length = (Bytes.ofNat w v).length := by
        rw [List.length_replicate, Bytes.length_ofNat]
      have hmask : mask (w :: l) (u :: used) = List.replicate w u ++ mask l used := rfl
      have hmarked : marked (u :: used) (v :: values) =
        (if u then v else 0) :: marked used values := rfl
      rw [hmarked, hmask, write, write, ih (Nat.succ.inj hu) (Nat.succ.inj hv),
        Bytes.keep_append hlen, Bytes.keep_replicate u (Bytes.length_ofNat w v)]
      cases u
      · rw [if_neg Bool.false_ne_true, if_neg Bool.false_ne_true, Bytes.ofNat_zero]
      · rfl

/-- Writing what some fields of a record hold keeps the bytes of these fields and no others. -/
theorem write_marked_read {l : Layout} {b : Bytes} {used : List Bool} (hu : used.length = l.length)
    (hlen : b.length = l.size) :
    l.write (marked used (l.read b)) = b.keep (l.mask used) := by
  rw [write_marked hu (length_read l b), write_read hlen]

end Layout

end Bourse
