import Mathlib.Tactic

/-!
# Binary tries of path prefixes

A trie maps the first bits of a path to values.  Inserting a value at a prefix
gives it to every path with that prefix, and to no other; the last insertion
that covers a path therefore decides what is found there.
-/

namespace Stdx.Foundation

inductive BitTrie (α : Type) where
  | empty
  | leaf (value : α)
  | node (zero one : BitTrie α)
  deriving DecidableEq, Repr

namespace BitTrie

variable {α : Type}

def branch : BitTrie α → Bool → BitTrie α
  | empty, _ => empty
  | leaf value, _ => leaf value
  | node zero one, bit => bif bit then one else zero

def insert (path : Nat → Bool) (value : α) : Nat → Nat → BitTrie α → BitTrie α
  | 0, _, _ => node (leaf value) (leaf value)
  | rest + 1, depth, t =>
    if path depth then
      node (t.branch false) (insert path value rest (depth + 1) (t.branch true))
    else
      node (insert path value rest (depth + 1) (t.branch false)) (t.branch true)

@[grind =]
def find (path : Nat → Bool) : Nat → BitTrie α → Option α
  | _, empty => none
  | _, leaf value => some value
  | depth, node zero one => if path depth then find path (depth + 1) one
      else find path (depth + 1) zero

/-- The paths agree on `count` bits from `depth` on. -/
def Agree (p q : Nat → Bool) (depth count : Nat) : Prop :=
  ∀ i, depth ≤ i → i < depth + count → p i = q i

theorem Agree.succ {p q : Nat → Bool} {depth count : Nat} :
    Agree p q depth (count + 1) ↔ p depth = q depth ∧ Agree p q (depth + 1) count := by
  constructor
  · intro h
    exact ⟨h depth (by omega) (by omega), fun i hi hi' => h i (by omega) (by omega)⟩
  · rintro ⟨hhead, htail⟩ i hi hi'
    rcases Nat.eq_or_lt_of_le hi with rfl | hlt
    · exact hhead
    · exact htail i (by omega) (by omega)

@[simp] theorem Agree.zero {p q : Nat → Bool} {depth : Nat} : Agree p q depth 0 :=
  fun i hi hi' => by omega

instance (p q : Nat → Bool) (depth count : Nat) : Decidable (Agree p q depth count) :=
  decidable_of_iff (∀ i, i < count → p (depth + i) = q (depth + i))
    ⟨fun h i hi hi' => by simpa [Nat.add_sub_cancel' hi] using h (i - depth) (by omega),
      fun h i hi => h (depth + i) (by omega) (by omega)⟩

/-! ## What insertions leave to be found -/

theorem find_branch (path : Nat → Bool) (depth : Nat) (t : BitTrie α) :
    find path (depth + 1) (t.branch (path depth)) = find path depth t := by
  cases t with
  | empty => rfl
  | leaf value => rfl
  | node zero one =>
    rw [find]
    cases path depth <;> rfl

theorem find_same (path : Nat → Bool) (depth : Nat) (value : α) :
    find path depth (node (leaf value) (leaf value)) = some value := by
  rw [find]
  split <;> rfl

theorem find_insert (p q : Nat → Bool) (value : α) (rest depth : Nat) (t : BitTrie α) :
    find q depth (insert p value rest depth t) =
      if Agree q p depth rest then some value else find q depth t := by
  induction rest generalizing depth t with
  | zero =>
    rw [if_pos Agree.zero, insert, find_same]
  | succ rest ih =>
    rw [insert, ← find_branch q depth t]
    simp only [Agree.succ]
    cases hp : p depth <;> cases hq : q depth <;> simp [find, hq, ih]

def lastCovering (path : Nat → Bool) (insertions : List ((Nat → Bool) × Nat × α)) : Option α :=
  (insertions.filter fun i => decide (Agree path i.1 0 i.2.1)).getLast?.map (·.2.2)

def insertAll (insertions : List ((Nat → Bool) × Nat × α)) (t : BitTrie α) : BitTrie α :=
  insertions.foldl (fun t i => insert i.1 i.2.2 i.2.1 0 t) t

theorem lastCovering_map {β : Type} (f : α → β) (path : Nat → Bool)
    (insertions : List ((Nat → Bool) × Nat × α)) :
    lastCovering path (insertions.map fun i => (i.1, i.2.1, f i.2.2)) =
      (lastCovering path insertions).map f := by
  simp [lastCovering, List.filter_map, Function.comp_def, Option.map_map]

theorem find_insertAll (path : Nat → Bool) (insertions : List ((Nat → Bool) × Nat × α))
    (t : BitTrie α) :
    find path 0 (insertAll insertions t) =
      (lastCovering path insertions).or (find path 0 t) := by
  induction insertions using List.reverseRecOn with
  | nil => rfl
  | append_singleton insertions i ih =>
    rw [insertAll, List.foldl_append, List.foldl_cons, List.foldl_nil, find_insert,
      ← insertAll, ih, lastCovering, lastCovering, List.filter_append]
    by_cases h : Agree path i.1 0 i.2.1
    · simp [h]
    · simp [h]

/-! ## Depth -/

/--
No node is deeper than `width`, and one at that depth gives both of its paths
the same value: it stands for a single path of `width` bits.
-/
def Fits (width : Nat) : Nat → BitTrie α → Prop
  | depth, node zero one =>
    (depth = width ∧ ∃ value, zero = leaf value ∧ one = leaf value) ∨
      (depth < width ∧ Fits width (depth + 1) zero ∧ Fits width (depth + 1) one)
  | _, _ => True

theorem Fits.branch {width depth : Nat} {t : BitTrie α} (h : Fits width depth t)
    (hdepth : depth < width) (bit : Bool) : Fits width (depth + 1) (t.branch bit) := by
  cases t with
  | empty => trivial
  | leaf value => trivial
  | node zero one =>
    rcases h with ⟨rfl, -⟩ | ⟨-, hzero, hone⟩
    · omega
    · cases bit
      · exact hzero
      · exact hone

theorem Fits.insert {width : Nat} (path : Nat → Bool) (value : α) {rest depth : Nat}
    {t : BitTrie α} (h : Fits width depth t) (hrest : depth + rest ≤ width) :
    Fits width depth (BitTrie.insert path value rest depth t) := by
  induction rest generalizing depth t with
  | zero =>
    rcases Nat.eq_or_lt_of_le hrest with heq | hlt
    · exact Or.inl ⟨heq, value, rfl, rfl⟩
    · exact Or.inr ⟨hlt, trivial, trivial⟩
  | succ rest ih =>
    have hlt : depth < width := by omega
    have hzero := h.branch hlt false
    have hone := h.branch hlt true
    rw [BitTrie.insert]
    split
    · exact Or.inr ⟨hlt, hzero, ih hone (by omega)⟩
    · exact Or.inr ⟨hlt, ih hzero (by omega), hone⟩

theorem Fits.insertAll {width : Nat} {insertions : List ((Nat → Bool) × Nat × α)}
    {t : BitTrie α} (h : Fits width 0 t) (hlengths : ∀ i ∈ insertions, i.2.1 ≤ width) :
    Fits width 0 (BitTrie.insertAll insertions t) := by
  induction insertions generalizing t with
  | nil => exact h
  | cons i insertions ih =>
    have hi := hlengths i (by simp)
    exact ih (h.insert i.1 i.2.2 (by omega)) fun j hj => hlengths j (by simp [hj])

/-! ## Subtries -/

@[grind =]
def descend (path : Nat → Bool) : Nat → Nat → BitTrie α → BitTrie α
  | 0, _, t => t
  | count + 1, depth, t => descend path count (depth + 1) (t.branch (path depth))

@[simp] theorem descend_empty (path : Nat → Bool) (count depth : Nat) :
    descend path count depth (empty : BitTrie α) = empty := by
  induction count generalizing depth with
  | zero => rfl
  | succ count ih => exact ih (depth + 1)

@[simp] theorem descend_leaf (path : Nat → Bool) (count depth : Nat) (value : α) :
    descend path count depth (leaf value) = leaf value := by
  induction count generalizing depth with
  | zero => rfl
  | succ count ih => exact ih (depth + 1)

theorem find_descend (path : Nat → Bool) (count depth : Nat) (t : BitTrie α) :
    find path (depth + count) (descend path count depth t) = find path depth t := by
  induction count generalizing depth t with
  | zero => rfl
  | succ count ih =>
    rw [descend, ← find_branch path depth t, ← ih (depth + 1), Nat.add_assoc,
      Nat.add_comm 1]

theorem descend_congr {p q : Nat → Bool} {count depth : Nat} (h : Agree p q depth count)
    (t : BitTrie α) : descend p count depth t = descend q count depth t := by
  induction count generalizing depth t with
  | zero => rfl
  | succ count ih =>
    obtain ⟨hhead, htail⟩ := Agree.succ.mp h
    rw [descend, descend, hhead, ih htail]

theorem Fits.descend {width : Nat} (path : Nat → Bool) {count depth : Nat} {t : BitTrie α}
    (h : Fits width depth t) (hcount : depth + count ≤ width) :
    Fits width (depth + count) (BitTrie.descend path count depth t) := by
  induction count generalizing depth t with
  | zero => exact h
  | succ count ih =>
    have := ih (h.branch (by omega) (path depth)) (by omega)
    rwa [Nat.add_assoc, Nat.add_comm 1] at this

theorem find_shift (path : Nat → Bool) (offset depth : Nat) (t : BitTrie α) :
    find (fun i => path (offset + i)) depth t = find path (offset + depth) t := by
  induction t generalizing depth with
  | empty => rfl
  | leaf value => rfl
  | node zero one ihzero ihone => rw [find, find, ihzero, ihone, Nat.add_assoc]

theorem Fits.shift {width depth : Nat} (offset : Nat) {t : BitTrie α}
    (h : Fits (offset + width) (offset + depth) t) : Fits width depth t := by
  induction t generalizing depth with
  | empty => trivial
  | leaf value => trivial
  | node zero one ihzero ihone =>
    rcases h with ⟨heq, hleaves⟩ | ⟨hlt, hzero, hone⟩
    · exact Or.inl ⟨by omega, hleaves⟩
    · exact Or.inr ⟨by omega, ihzero hzero, ihone hone⟩

end BitTrie

end Stdx.Foundation
