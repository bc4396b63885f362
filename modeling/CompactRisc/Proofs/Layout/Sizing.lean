import CompactRisc.Resolution
import Mathlib.Algebra.GroupWithZero.Nat
import Mathlib.Data.List.Basic

/-!
# Sizing

Which transfers end in short form, as a computation on sizes alone. A line of the body has a size:
one word if it mentions no label, two for a move, three for a jump or call. The address of a line
is the sum of the sizes before it. One sweep over the transfers, first to last, sets the size of
each to one if its displacement fits with the sizes at that moment.

The displacement is tried from the third word of the transfer, which is where the jump or call
through the register stands.

Results:
* `conform_sizesAfter`: the sweep changes no size but that of a transfer, from three to one.
* `getElem?_sizesAfter_of_le`, `getElem?_sizesAfter_of_lt`: a size changes only at its own turn.
* `short_iff`: a transfer becomes short exactly if it is in reach at its turn.
* `displacement_shrinks`, `displacement_fits`: a transfer that has become short stays in range,
  whatever becomes short later.
* `long_back`, `long_in_reach`: what the sweep can miss is ahead of the transfer.
-/
namespace CompactRisc.Sizing

/-- What a line of the body is to the layout. A target is the number of a line of the body. -/
inductive Item where
  | plain
  | load (target : Nat)
  | transfer (target : Nat) (least greatest : Int)
  deriving DecidableEq, Repr

namespace Item

/-- The size before the sweep. -/
def size : Item → Nat
  | plain => 1
  | load _ => 2
  | transfer .. => 3

def target? : Item → Option Nat
  | plain => none
  | load target | transfer target .. => some target

end Item

def address (sizes : List Nat) (k : Nat) : Nat := (sizes.take k).sum

/-- The displacement to `target` from the third word of line `k`. -/
def reach (sizes : List Nat) (target k : Nat) : Int :=
  (address sizes target : Int) - (address sizes k + 2 : Nat) - 1

/-- One step of the sweep: line `k` becomes short if it is a transfer and its displacement fits. -/
def shorten (items : List Item) (sizes : List Nat) (k : Nat) : List Nat :=
  match items[k]? with
  | some (.transfer target least greatest) =>
    if least ≤ reach sizes target k ∧ reach sizes target k ≤ greatest then sizes.set k 1 else sizes
  | _ => sizes

/-- The sizes after the first `k` lines have had their turn. -/
def sizesAfter (items : List Item) (k : Nat) : List Nat :=
  (List.range k).foldl (shorten items) (items.map Item.size)

def finalSizes (items : List Item) : List Nat := sizesAfter items items.length

def targetOf (items : List Item) (k : Nat) : Nat := (items[k]?.bind Item.target?).getD 0

/-- The displacement of line `k` in short form. -/
def displacement (items : List Item) (sizes : List Nat) (k : Nat) : Int :=
  (address sizes (targetOf items k) : Int) - address sizes k - 1

/-- The sizes are the first ones, except that some transfers are short. -/
def Conform (items : List Item) (sizes : List Nat) : Prop :=
  sizes.length = items.length ∧ ∀ (k : Nat) (item : Item), items[k]? = some item →
    sizes[k]? = some item.size ∨
      (∃ target least greatest, item = .transfer target least greatest) ∧ sizes[k]? = some 1

theorem sizesAfter_succ (items : List Item) (k : Nat) :
    sizesAfter items (k + 1) = shorten items (sizesAfter items k) k := by
  simp [sizesAfter, List.range_succ]

theorem length_shorten (items : List Item) (sizes : List Nat) (k : Nat) :
    (shorten items sizes k).length = sizes.length := by
  unfold shorten
  split
  · split <;> simp
  · rfl

theorem getElem?_shorten_of_ne (items : List Item) (sizes : List Nat) {j k : Nat} (h : j ≠ k) :
    (shorten items sizes k)[j]? = sizes[j]? := by
  unfold shorten
  split
  · split
    · rw [List.getElem?_set_ne (Ne.symm h)]
    · rfl
  · rfl

theorem getElem?_sizesAfter_of_le (items : List Item) (j : Nat) :
    ∀ k, k ≤ j → (sizesAfter items k)[j]? = items[j]?.map Item.size
  | 0, _ => by simp [sizesAfter]
  | k + 1, h => by
    rw [sizesAfter_succ, getElem?_shorten_of_ne _ _ (by omega),
      getElem?_sizesAfter_of_le items j k (by omega)]

theorem getElem?_sizesAfter_of_lt (items : List Item) (j : Nat) :
    ∀ k, j < k → (sizesAfter items k)[j]? = (sizesAfter items (j + 1))[j]?
  | 0, h => absurd h (Nat.not_lt_zero _)
  | k + 1, h => by
    by_cases hk : j = k
    · rw [hk]
    · rw [sizesAfter_succ, getElem?_shorten_of_ne _ _ hk,
        getElem?_sizesAfter_of_lt items j k (by omega)]

/-- Only a transfer changes its size, and only to one. -/
theorem conform_shorten {items : List Item} {sizes : List Nat} (h : Conform items sizes) (k : Nat) :
    Conform items (shorten items sizes k) := by
  refine ⟨(length_shorten ..).trans h.1, fun j item hj => ?_⟩
  by_cases hk : j = k
  · subst hk
    have hlt : j < sizes.length := by
      rw [h.1]
      exact (List.getElem?_eq_some_iff.1 hj).1
    unfold shorten
    rw [hj]
    split
    · rename_i target least greatest he
      split
      · exact Or.inr ⟨⟨target, least, greatest, Option.some.inj he⟩, by simp [hlt]⟩
      · exact h.2 j item hj
    · exact h.2 j item hj
  · rw [getElem?_shorten_of_ne _ _ hk]
    exact h.2 j item hj

theorem conform_sizesAfter (items : List Item) : ∀ k, Conform items (sizesAfter items k)
  | 0 => ⟨by simp [sizesAfter], fun j item hj => by simp [sizesAfter, hj]⟩
  | k + 1 => by
    rw [sizesAfter_succ]
    exact conform_shorten (conform_sizesAfter items k) k

theorem length_sizesAfter (items : List Item) (k : Nat) :
    (sizesAfter items k).length = items.length := (conform_sizesAfter items k).1

theorem finalSizes_of_no_transfer {items : List Item}
    (h : ∀ target least greatest, Item.transfer target least greatest ∉ items) :
    finalSizes items = items.map Item.size := by
  have hconform := conform_sizesAfter items items.length
  apply List.ext_getElem?
  intro k
  rw [List.getElem?_map]
  cases hk : items[k]? with
  | none =>
    rw [List.getElem?_eq_none_iff] at hk
    exact List.getElem?_eq_none (hconform.1 ▸ hk)
  | some item =>
    rcases hconform.2 k item hk with hsize | ⟨⟨target, least, greatest, rfl⟩, -⟩
    · exact hsize
    · exact absurd (List.mem_of_getElem? hk) (h target least greatest)

/-! ## Short transfers stay near -/

theorem address_succ (sizes : List Nat) (k : Nat) :
    address sizes (k + 1) = address sizes k + sizes.getD k 0 := by
  rw [address, address, List.take_add_one, List.sum_append, List.getD_eq_getElem?_getD]
  cases sizes[k]? <;> simp

theorem address_congr {sizes sizes' : List Nat} {k : Nat} (h : ∀ j < k, sizes[j]? = sizes'[j]?) :
    address sizes k = address sizes' k := by
  have htake : sizes.take k = sizes'.take k := by
    apply List.ext_getElem?
    intro j
    rw [List.getElem?_take, List.getElem?_take]
    split
    · exact h j ‹_›
    · rfl
  rw [address, address, htake]

/-- If all sizes shrink, so does the distance between two lines. -/
theorem address_add_le {sizes sizes' : List Nat} (h : ∀ j, sizes.getD j 0 ≤ sizes'.getD j 0)
    {a b : Nat} (hab : a ≤ b) :
    address sizes b + address sizes' a ≤ address sizes' b + address sizes a := by
  induction hab with
  | refl => omega
  | @step b _ ih =>
    have := h b
    rw [address_succ, address_succ]
    omega

theorem address_mono (sizes : List Nat) {a b : Nat} (hab : a ≤ b) :
    address sizes a ≤ address sizes b := by
  induction hab with
  | refl => exact Nat.le_refl _
  | step _ ih => exact Nat.le_trans ih (by rw [address_succ]; exact Nat.le_add_right _ _)

theorem shorten_transfer {items : List Item} {k target : Nat} {least greatest : Int}
    (hk : items[k]? = some (.transfer target least greatest)) (sizes : List Nat) :
    shorten items sizes k =
      if least ≤ reach sizes target k ∧ reach sizes target k ≤ greatest then sizes.set k 1
      else sizes := by
  simp only [shorten, hk]

theorem getD_shorten_le {items : List Item} {sizes : List Nat} (h : Conform items sizes)
    (k j : Nat) : (shorten items sizes k).getD j 0 ≤ sizes.getD j 0 := by
  simp only [List.getD_eq_getElem?_getD]
  by_cases hj : j = k
  · subst hj
    unfold shorten
    split
    · rename_i target least greatest hk
      split
      · have hlt : j < sizes.length := by
          rw [h.1]
          exact (List.getElem?_eq_some_iff.1 hk).1
        rw [List.getElem?_set_self hlt]
        rcases h.2 j _ hk with hsize | ⟨-, hsize⟩
        · rw [hsize]
          simp [Item.size]
        · exact Nat.le_of_eq (by rw [hsize])
      · exact Nat.le_refl _
    · exact Nat.le_refl _
  · exact Nat.le_of_eq (by rw [getElem?_shorten_of_ne _ _ hj])

theorem getD_sizesAfter_le (items : List Item) {k m : Nat} (h : k ≤ m) (j : Nat) :
    (sizesAfter items m).getD j 0 ≤ (sizesAfter items k).getD j 0 := by
  induction h with
  | refl => exact Nat.le_refl _
  | @step m _ ih =>
    rw [sizesAfter_succ]
    exact Nat.le_trans (getD_shorten_le (conform_sizesAfter items m) m j) ih

section Near

variable {items : List Item} {k target : Nat} {least greatest : Int}

/-- A transfer ends up short exactly if it is in reach at its turn. -/
theorem short_iff (hk : items[k]? = some (.transfer target least greatest)) :
    (finalSizes items)[k]? = some 1 ↔ least ≤ reach (sizesAfter items k) target k ∧
      reach (sizesAfter items k) target k ≤ greatest := by
  have hlt : k < items.length := (List.getElem?_eq_some_iff.1 hk).1
  rw [finalSizes, getElem?_sizesAfter_of_lt items k _ hlt, sizesAfter_succ, shorten_transfer hk]
  split
  · rename_i h
    have hlen : k < (sizesAfter items k).length := by rwa [length_sizesAfter]
    exact ⟨fun _ => h, fun _ => List.getElem?_set_self hlen⟩
  · rename_i h
    -- it has its first size still
    rw [getElem?_sizesAfter_of_le items k k (Nat.le_refl k), hk]
    exact ⟨fun hone => (by cases hone), fun h' => absurd h' h⟩

theorem address_add_size_le {sizes : List Nat} {n : Nat} (hk : sizes[k]? = some n)
    (hahead : k < target) : address sizes k + n ≤ address sizes target := by
  have hmono : address sizes (k + 1) ≤ address sizes target := address_mono sizes hahead
  rw [address_succ, List.getD_eq_getElem?_getD, hk, Option.getD_some] at hmono
  exact hmono

theorem address_le_iff {sizes : List Nat} {n : Nat} (hk : sizes[k]? = some n) (hn : 0 < n) :
    address sizes target ≤ address sizes k ↔ target ≤ k := by
  refine ⟨fun h => ?_, address_mono sizes⟩
  by_contra hahead
  have hafter := address_add_size_le hk (Nat.lt_of_not_le hahead)
  omega

theorem reach_neg (sizes : List Nat) (hback : target ≤ k) : reach sizes target k < 0 := by
  have hmono := address_mono sizes hback
  unfold reach
  omega

theorem reach_nonneg {sizes : List Nat} (hk : sizes[k]? = some 3) (hahead : k < target) :
    0 ≤ reach sizes target k := by
  have hafter := address_add_size_le hk hahead
  unfold reach
  omega

/-- At the turn of a line, the lines before it have their last sizes. -/
theorem address_before (items : List Item) {j : Nat} (hj : j ≤ k) (hk : k ≤ items.length) :
    address (finalSizes items) j = address (sizesAfter items k) j := by
  apply address_congr
  intro i hi
  rw [finalSizes, getElem?_sizesAfter_of_lt items i _ (by omega),
    getElem?_sizesAfter_of_lt items i k (by omega)]

theorem displacement_transfer (hk : items[k]? = some (.transfer target least greatest))
    (sizes : List Nat) :
    displacement items sizes k = (address sizes target : Int) - address sizes k - 1 := by
  simp [displacement, targetOf, hk, Item.target?]

theorem size_at_turn (hk : items[k]? = some (.transfer target least greatest)) :
    (sizesAfter items k)[k]? = some 3 := by
  rw [getElem?_sizesAfter_of_le items k k (Nat.le_refl k), hk]
  rfl

/-- A transfer reaches back over lines that have their last sizes at its turn. -/
theorem reach_back (hk : items[k]? = some (.transfer target least greatest))
    (hback : target ≤ k) :
    reach (finalSizes items) target k = reach (sizesAfter items k) target k := by
  have hlt : k < items.length := (List.getElem?_eq_some_iff.1 hk).1
  rw [reach, reach, address_before items (Nat.le_refl k) (Nat.le_of_lt hlt),
    address_before items hback (Nat.le_of_lt hlt)]

/-- To a target that is not after it, a short transfer has the displacement of its turn, but for the
two words that it has lost. -/
theorem displacement_back (hk : items[k]? = some (.transfer target least greatest))
    (hback : target ≤ k) : displacement items (finalSizes items) k < 0 ∧
      displacement items (finalSizes items) k = reach (sizesAfter items k) target k + 2 := by
  have hmono := address_mono (finalSizes items) hback
  rw [displacement_transfer hk, ← reach_back hk hback, reach]
  omega

/-- To a target after it, a short transfer has a displacement that is no larger than at its turn. -/
theorem displacement_ahead (hk : items[k]? = some (.transfer target least greatest))
    (hshort : (finalSizes items)[k]? = some 1) (hahead : k < target) :
    0 ≤ displacement items (finalSizes items) k ∧
      displacement items (finalSizes items) k ≤ reach (sizesAfter items k) target k := by
  have hlt : k < items.length := (List.getElem?_eq_some_iff.1 hk).1
  -- it takes one word in the end and three at its turn
  have hone : address (finalSizes items) (k + 1) = address (finalSizes items) k + 1 := by
    rw [address_succ, List.getD_eq_getElem?_getD, hshort, Option.getD_some]
  have hthree : address (sizesAfter items k) (k + 1) = address (sizesAfter items k) k + 3 := by
    rw [address_succ, List.getD_eq_getElem?_getD, size_at_turn hk, Option.getD_some]
  have hafter := address_add_size_le hshort hahead
  have hle : address (finalSizes items) target + address (sizesAfter items k) (k + 1) ≤
      address (sizesAfter items k) target + address (finalSizes items) (k + 1) :=
    address_add_le (getD_sizesAfter_le items (Nat.le_of_lt hlt)) hahead
  rw [displacement_transfer hk, reach]
  omega

/-- A short transfer has in the end a displacement of the sign that it was tried with, and no
farther from zero. -/
theorem displacement_shrinks (hk : items[k]? = some (.transfer target least greatest))
    (hshort : (finalSizes items)[k]? = some 1) :
    (target ≤ k → reach (sizesAfter items k) target k < 0 ∧
      displacement items (finalSizes items) k < 0) ∧
    (k < target → 0 ≤ reach (sizesAfter items k) target k ∧
      0 ≤ displacement items (finalSizes items) k) ∧
    (displacement items (finalSizes items) k).natAbs ≤
      (reach (sizesAfter items k) target k).natAbs := by
  by_cases hback : target ≤ k
  · have hneg := reach_neg (sizesAfter items k) hback
    have hdisp := displacement_back hk hback
    omega
  · have hahead : k < target := Nat.lt_of_not_le hback
    have hnonneg := reach_nonneg (size_at_turn hk) hahead
    have hdisp := displacement_ahead hk hshort hahead
    omega

/-- The displacement of a short transfer stays in the range that it was tried against. -/
theorem displacement_fits (hk : items[k]? = some (.transfer target least greatest))
    (hshort : (finalSizes items)[k]? = some 1) (hleast : least ≤ 0) (hgreatest : 0 ≤ greatest) :
    least ≤ displacement items (finalSizes items) k ∧
      displacement items (finalSizes items) k ≤ greatest := by
  have hreach := (short_iff hk).1 hshort
  have hshrinks := displacement_shrinks hk hshort
  omega

/-! ## Long transfers -/

theorem size_of_long (hk : items[k]? = some (.transfer target least greatest))
    (hlong : (finalSizes items)[k]? ≠ some 1) : (finalSizes items)[k]? = some 3 := by
  rcases (conform_sizesAfter items _).2 k _ hk with hsize | ⟨-, hsize⟩
  · exact hsize
  · exact absurd hsize hlong

/-- A long transfer to a target that is not after it is out of reach for good: it was tried with the
displacement that it has in the end. -/
theorem long_back (hk : items[k]? = some (.transfer target least greatest))
    (hlong : (finalSizes items)[k]? ≠ some 1) (hgreatest : 0 ≤ greatest) (hback : target ≤ k) :
    reach (finalSizes items) target k = reach (sizesAfter items k) target k ∧
      reach (sizesAfter items k) target k < least := by
  have hneg := reach_neg (sizesAfter items k) hback
  rw [Ne, short_iff hk] at hlong
  refine ⟨reach_back hk hback, ?_⟩
  omega

/-- A long transfer that is in reach in the end has its target after it, and was too far away when it
was tried. -/
theorem long_in_reach (hk : items[k]? = some (.transfer target least greatest))
    (hlong : (finalSizes items)[k]? ≠ some 1) (hleast : least ≤ 0) (hgreatest : 0 ≤ greatest)
    (hin : least ≤ reach (finalSizes items) target k) :
    k < target ∧ greatest < reach (sizesAfter items k) target k := by
  by_cases hback : target ≤ k
  · have hout := long_back hk hlong hgreatest hback
    omega
  · have hahead : k < target := Nat.lt_of_not_le hback
    have hnonneg := reach_nonneg (size_at_turn hk) hahead
    rw [Ne, short_iff hk] at hlong
    exact ⟨hahead, by omega⟩

end Near

end CompactRisc.Sizing
