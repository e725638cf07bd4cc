import Mathlib.Data.List.Basic

/-!
# Prefixes and suffixes of lists

`take`, `drop` and `split` walk a list with `reduce_while` and a remaining count.  A negative amount
is turned into the length of a prefix first, clamped at zero, and handed to the loop of the other
function: what `take` leaves out at the front is what `drop` keeps.

The loop of `take` was written for a positive count.  It stops when one element remains to be taken,
so from a count of zero it never stops.  `drop` hands it that count when the amount reaches past the
front of the list.
-/

set_option linter.dupNamespace false

namespace Fz.Lib

variable {α β : Type}

/-! ## Walking a list -/

/-- What a reducer asks for. -/
inductive Command (β : Type) where
  | cont (acc : β)
  | halt (acc : β)

namespace FzList

def reduceWhileCont (reducer : α → β → Command β) : List α → β → β
  | [], acc => acc
  | head :: tail, acc =>
    match reducer head acc with
    | .cont acc => reduceWhileCont reducer tail acc
    | .halt acc => acc

def reduceWhile (list : List α) (acc : β) (reducer : α → β → Command β) : β :=
  reduceWhileCont reducer list acc

def countFrom : List α → Int → Int
  | [], acc => acc
  | _ :: tail, acc => countFrom tail (acc + 1)

def count (list : List α) : Int := countFrom list 0

end FzList

namespace Enum

def reverseOnto : List α → List α → List α
  | [], acc => acc
  | head :: tail, acc => reverseOnto tail (head :: acc)

def reverseList (list : List α) : List α := reverseOnto list []

/-! ## Counted walks -/

def nonNegative (count : Int) : Int := if count > 0 then count else 0

/-- The length of the prefix that is left when the last `-amount` elements are taken away. -/
def normalizedPrefixCount (list : List α) (amount : Int) : Int :=
  nonNegative (FzList.count list + amount)

def takePositive (list : List α) (amount : Int) : List α :=
  let finished := FzList.reduceWhile list (([] : List α), amount) fun entry (acc, remaining) =>
    if remaining = 1 then .halt (entry :: acc, 0) else .cont (entry :: acc, remaining - 1)
  reverseList finished.1

def dropPositive (list : List α) (amount : Int) : List α :=
  let finished := FzList.reduceWhile list (([] : List α), amount) fun entry (acc, remaining) =>
    .cont (if remaining > 0 then (acc, remaining - 1) else (entry :: acc, 0))
  reverseList finished.1

def splitPositive (list : List α) (count : Int) : List α × List α :=
  let finished := FzList.reduceWhile list (([] : List α), ([] : List α), count)
    fun entry (left, right, remaining) =>
      .cont (if remaining > 0 then (entry :: left, right, remaining - 1)
        else (left, entry :: right, 0))
  (reverseList finished.1, reverseList finished.2.1)

def take (list : List α) (amount : Int) : List α :=
  if amount = 0 then []
  else if amount > 0 then takePositive list amount
  else dropPositive list (normalizedPrefixCount list amount)

def drop (list : List α) (amount : Int) : List α :=
  if amount = 0 then list
  else if amount > 0 then dropPositive list amount
  else takePositive list (normalizedPrefixCount list amount)

def split (list : List α) (count : Int) : List α × List α :=
  if count ≥ 0 then splitPositive list count
  else splitPositive list (normalizedPrefixCount list count)

/-! ## What the walks come to -/

theorem reverseOnto_eq (list : List α) : ∀ acc, reverseOnto list acc = list.reverse ++ acc := by
  induction list with
  | nil => exact fun acc => rfl
  | cons head tail ih =>
    intro acc
    rw [reverseOnto, ih, List.reverse_cons, List.append_assoc]
    rfl

@[simp] theorem reverseList_eq (list : List α) : reverseList list = list.reverse := by
  rw [reverseList, reverseOnto_eq, List.append_nil]

theorem count_eq (list : List α) : FzList.count list = list.length := by
  have hfrom : ∀ acc : Int, FzList.countFrom list acc = acc + list.length := by
    induction list with
    | nil => exact fun acc => by simp [FzList.countFrom]
    | cons head tail ih =>
      intro acc
      rw [FzList.countFrom, ih, List.length_cons]
      omega
  rw [FzList.count, hfrom, Int.zero_add]

/-! ## What the counted walks come to -/

theorem reduceWhileCont_take (list : List α) : ∀ (acc : List α) (remaining : Int),
    (FzList.reduceWhileCont (fun entry (acc, remaining) =>
      if remaining = 1 then Command.halt (entry :: acc, 0)
      else .cont (entry :: acc, remaining - 1)) list (acc, remaining)).1 =
        (if remaining > 0 then list.take remaining.toNat else list).reverse ++ acc := by
  induction list with
  | nil => exact fun acc remaining => by simp [FzList.reduceWhileCont]
  | cons entry tail ih =>
    intro acc remaining
    rw [FzList.reduceWhileCont]
    by_cases hlast : remaining = 1
    · simp [hlast]
    · simp only [if_neg hlast]
      rw [ih]
      by_cases hpos : remaining > 0
      · have hsucc : remaining.toNat = (remaining - 1).toNat + 1 := by omega
        rw [if_pos hpos, if_pos (by omega), hsucc, List.take_succ_cons, List.reverse_cons,
          List.append_assoc]
        rfl
      · rw [if_neg hpos, if_neg (by omega), List.reverse_cons, List.append_assoc]
        rfl

theorem reduceWhileCont_drop (list : List α) : ∀ (acc : List α) (remaining : Int),
    (FzList.reduceWhileCont (fun entry (acc, remaining) => Command.cont
      (if remaining > 0 then (acc, remaining - 1) else (entry :: acc, 0)))
        list (acc, remaining)).1 = (list.drop remaining.toNat).reverse ++ acc := by
  induction list with
  | nil => exact fun acc remaining => by simp [FzList.reduceWhileCont]
  | cons entry tail ih =>
    intro acc remaining
    rw [FzList.reduceWhileCont]
    dsimp only
    by_cases hpos : remaining > 0
    · have hsucc : remaining.toNat = (remaining - 1).toNat + 1 := by omega
      rw [if_pos hpos, ih, hsucc, List.drop_succ_cons]
    · have hzero : remaining.toNat = 0 := by omega
      rw [if_neg hpos, ih, hzero, Int.toNat_zero, List.drop_zero, List.drop_zero,
        List.reverse_cons, List.append_assoc]
      rfl

theorem reduceWhileCont_split (list : List α) : ∀ (left right : List α) (remaining : Int),
    let finished := FzList.reduceWhileCont (fun entry (left, right, remaining) => Command.cont
      (if remaining > 0 then (entry :: left, right, remaining - 1) else (left, entry :: right, 0)))
        list (left, right, remaining)
    finished.1 = (list.take remaining.toNat).reverse ++ left ∧
      finished.2.1 = (list.drop remaining.toNat).reverse ++ right := by
  induction list with
  | nil => exact fun left right remaining => by simp [FzList.reduceWhileCont]
  | cons entry tail ih =>
    intro left right remaining
    rw [FzList.reduceWhileCont]
    dsimp only
    by_cases hpos : remaining > 0
    · have hsucc : remaining.toNat = (remaining - 1).toNat + 1 := by omega
      rw [if_pos hpos, hsucc, List.take_succ_cons, List.drop_succ_cons, List.reverse_cons,
        List.append_assoc]
      exact ih (entry :: left) right (remaining - 1)
    · have hzero : remaining.toNat = 0 := by omega
      rw [if_neg hpos, hzero, List.take_zero, List.drop_zero, List.reverse_cons, List.append_assoc]
      have h := ih left (entry :: right) 0
      rw [Int.toNat_zero, List.take_zero, List.drop_zero] at h
      exact h

theorem takePositive_eq (list : List α) (amount : Int) :
    takePositive list amount = if amount > 0 then list.take amount.toNat else list := by
  rw [takePositive, FzList.reduceWhile, reverseList_eq, reduceWhileCont_take, List.append_nil,
    List.reverse_reverse]

theorem dropPositive_eq (list : List α) (amount : Int) :
    dropPositive list amount = list.drop amount.toNat := by
  rw [dropPositive, FzList.reduceWhile, reverseList_eq, reduceWhileCont_drop, List.append_nil,
    List.reverse_reverse]

theorem splitPositive_eq (list : List α) (count : Int) :
    splitPositive list count = (list.take count.toNat, list.drop count.toNat) := by
  have h := reduceWhileCont_split list [] [] count
  rw [splitPositive, FzList.reduceWhile, reverseList_eq, reverseList_eq, h.1, h.2, List.append_nil,
    List.append_nil, List.reverse_reverse, List.reverse_reverse]

theorem toNat_normalizedPrefixCount (list : List α) (amount : Int) :
    (normalizedPrefixCount list amount).toNat = (list.length + amount).toNat := by
  rw [normalizedPrefixCount, count_eq, nonNegative]
  split <;> omega

theorem normalizedPrefixCount_pos (list : List α) (amount : Int) :
    normalizedPrefixCount list amount > 0 ↔ -amount < list.length := by
  rw [normalizedPrefixCount, count_eq, nonNegative]
  split <;> omega

/-! ## Prefix and suffix -/

/-- `take` and `drop` split a list without loss or overlap, and `split` is the two of them. -/
structure Splits (list : List α) (amount : Int) : Prop where
  front : 0 ≤ amount → take list amount ++ drop list amount = list ∧
    ((take list amount).length : Int) = min amount list.length ∧
    split list amount = (take list amount, drop list amount)
  back : amount < 0 → drop list amount ++ take list amount = list ∧
    ((take list amount).length : Int) = min (-amount) list.length ∧
    split list amount = (drop list amount, take list amount)

/-- The parts fit together unless the whole of a list that has elements is to be dropped from its
back: then `drop` keeps all of it. -/
theorem splits_iff (list : List α) (amount : Int) :
    Splits list amount ↔ 0 ≤ amount ∨ list = [] ∨ -amount < list.length := by
  rcases Int.lt_or_le amount 0 with hneg | hpos
  · have htake : take list amount = list.drop (list.length + amount).toNat := by
      rw [take, if_neg (by omega), if_neg (by omega), dropPositive_eq,
        toNat_normalizedPrefixCount]
    have hsplit : split list amount = (list.take (list.length + amount).toNat,
        list.drop (list.length + amount).toNat) := by
      rw [split, if_neg (by omega), splitPositive_eq, toNat_normalizedPrefixCount]
    have hdrop : drop list amount =
        if -amount < list.length then list.take (list.length + amount).toNat else list := by
      rw [drop, if_neg (by omega), if_neg (by omega), takePositive_eq,
        toNat_normalizedPrefixCount]
      simp only [normalizedPrefixCount_pos]
    constructor
    · intro h
      have hback := (h.back hneg).1
      by_contra hall
      push Not at hall
      obtain ⟨-, hnil, hlen⟩ := hall
      rw [hdrop, if_neg (by omega), htake, List.append_right_eq_self,
        List.drop_eq_nil_iff] at hback
      have hpos := List.length_pos_iff.mpr hnil
      omega
    · intro h
      have hkeeps : drop list amount = list.take (list.length + amount).toNat := by
        rcases h with h | rfl | h
        · omega
        · rw [hdrop, List.take_nil, ite_self]
        · rw [hdrop, if_pos h]
      refine ⟨fun h0 => absurd h0 (by omega), fun _ => ?_⟩
      rw [htake, hkeeps, hsplit]
      refine ⟨List.take_append_drop _ _, ?_, rfl⟩
      rw [List.length_drop]
      omega
  · refine iff_of_true ⟨fun _ => ?_, fun h => absurd h (by omega)⟩ (.inl hpos)
    have htake : take list amount = list.take amount.toNat := by
      rw [take]
      split
      · rename_i hzero
        rw [hzero, Int.toNat_zero, List.take_zero]
      · rw [if_pos (by omega), takePositive_eq, if_pos (by omega)]
    have hdrop : drop list amount = list.drop amount.toNat := by
      rw [drop]
      split
      · rename_i hzero
        rw [hzero, Int.toNat_zero, List.drop_zero]
      · rw [if_pos (by omega), dropPositive_eq]
    rw [htake, hdrop, split, if_pos hpos, splitPositive_eq]
    refine ⟨List.take_append_drop _ _, ?_, rfl⟩
    rw [List.length_take]
    omega

/-- Dropping the only element of a list from its back keeps it, and `take` gives it too. -/
theorem not_splits_singleton : ¬Splits [()] (-1) := by
  intro h
  exact absurd (h.back (by decide)).1 (by decide)

end Enum

end Fz.Lib
