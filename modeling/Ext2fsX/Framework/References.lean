import Mathlib.Algebra.Order.Group.Int
import Mathlib.Data.Finset.Card

namespace Ext2fsX.Framework

/-- References under a name each: a finite map as the set of its pairs. -/
structure RefMap (κ ι : Type) where
  pairs : Finset (κ × ι)
  unique : ∀ a∈pairs,∀ b∈pairs,a.1=b.1 → a=b

/-- Whether `i` is `j`, as a number. -/
def ind {ι : Type} [DecidableEq ι] (i j : ι) : ℤ := if i=j then 1 else 0

@[simp] theorem ind_self {ι : Type} [DecidableEq ι] (i : ι) : ind i i=1 := if_pos rfl

theorem ind_ne {ι : Type} [DecidableEq ι] {i j : ι} (h : i≠j) : ind i j=0 := if_neg h

namespace RefMap

variable {κ ι : Type} {m : RefMap κ ι} {k x : κ} {i j : ι}

def Has (m : RefMap κ ι) (k : κ) : Prop := ∃ a∈m.pairs,a.1=k

def keep (m : RefMap κ ι) (p : κ → Bool) : RefMap κ ι where
  pairs := m.pairs.filter (fun a => p a.1=true)
  unique a ha b hb := m.unique a (Finset.mem_filter.mp ha).1 b (Finset.mem_filter.mp hb).1

@[ext] theorem ext {m' : RefMap κ ι} (h : ∀ a,a∈m.pairs ↔ a∈m'.pairs) : m=m' := by
  cases m
  congr
  exact Finset.ext h

theorem eq_of_mem (hi : (k,i)∈m.pairs) (hj : (k,j)∈m.pairs) : i=j :=
  congrArg Prod.snd (m.unique _ hi _ hj rfl)

theorem Has.of_mem (h : (k,i)∈m.pairs) : m.Has k := ⟨_,h,rfl⟩

@[simp] theorem mem_keep {p : κ → Bool} : (x,j)∈(m.keep p).pairs ↔ (x,j)∈m.pairs ∧ p x=true := by
  simp [keep]

section Count

variable [DecidableEq ι]

/-- The number of references to `i`. -/
def count (m : RefMap κ ι) (i : ι) : ℕ := (m.pairs.filter (fun a => a.2=i)).card

theorem count_pos (h : (k,i)∈m.pairs) : 0 < m.count i := by
  apply Finset.card_pos.mpr
  exact ⟨_,Finset.mem_filter.mpr ⟨h,rfl⟩⟩

theorem not_mem_of_count (h : m.count i=0) : (k,i)∉m.pairs := by
  intro hm
  exact absurd h (count_pos hm).ne'

theorem exists_of_count_pos (h : 0 < m.count i) : ∃ k,(k,i)∈m.pairs := by
  obtain ⟨⟨k,j⟩,ha⟩ := Finset.card_pos.mp h
  obtain ⟨hm,rfl⟩ := Finset.mem_filter.mp ha
  exact ⟨k,hm⟩

end Count

section Keys

variable [DecidableEq κ]

instance (m : RefMap κ ι) (k : κ) : Decidable (m.Has k) :=
  inferInstanceAs (Decidable (∃ a∈m.pairs,a.1=k))

def del (m : RefMap κ ι) (k : κ) : RefMap κ ι := m.keep (fun x => decide (x≠k))

@[simp] theorem mem_del : (x,j)∈(m.del k).pairs ↔ (x,j)∈m.pairs ∧ x≠k := by
  simp [del]

theorem not_has_del : ¬(m.del k).Has k := by
  rintro ⟨⟨x,j⟩,hx,rfl⟩
  exact (mem_del.mp hx).2 rfl

theorem del_of_not_has (h : ¬m.Has k) : m.del k=m := by
  ext ⟨x,j⟩
  rw [mem_del]
  exact ⟨fun hx => hx.1,fun hx => ⟨hx,fun he => h ⟨_,hx,he⟩⟩⟩

variable [DecidableEq ι]

def put (m : RefMap κ ι) (k : κ) (i : ι) : RefMap κ ι where
  pairs := insert (k,i) (m.del k).pairs
  unique a ha b hb h := by
    have hne (c : κ × ι) (hc : c∈(m.del k).pairs) : c.1≠k := (mem_del.mp hc).2
    obtain rfl | ha := Finset.mem_insert.mp ha
    · obtain rfl | hb := Finset.mem_insert.mp hb
      · rfl
      · exact absurd h.symm (hne b hb)
    · obtain rfl | hb := Finset.mem_insert.mp hb
      · exact absurd h (hne a ha)
      · exact (m.del k).unique a ha b hb h

@[simp] theorem mem_put : (x,j)∈(m.put k i).pairs ↔ (x=k ∧ j=i) ∨ ((x,j)∈m.pairs ∧ x≠k) := by
  simp [put]

theorem put_del : (m.del k).put k i=m.put k i := by
  ext ⟨x,j⟩
  simp only [mem_put,mem_del]
  tauto

theorem put_of_mem (h : (k,i)∈m.pairs) : m.put k i=m := by
  ext ⟨x,j⟩
  rw [mem_put]
  constructor
  · rintro (⟨rfl,rfl⟩ | hx)
    · exact h
    · exact hx.1
  · intro hx
    by_cases hk : x=k
    · subst hk
      exact .inl ⟨rfl,eq_of_mem hx h⟩
    · exact .inr ⟨hx,hk⟩

theorem count_put_new (h : ¬m.Has k) (j i : ι) : ((m.put k j).count i : ℤ)=m.count i+ind j i := by
  have hn : (k,j)∉m.pairs := fun hm => h (.of_mem hm)
  have hp : (m.put k j).pairs=insert (k,j) m.pairs :=
    congrArg (fun n : RefMap κ ι => insert (k,j) n.pairs) (del_of_not_has h)
  unfold count ind
  rw [hp,Finset.filter_insert]
  split
  · rw [Finset.card_insert_of_notMem (fun hm => hn (Finset.mem_filter.mp hm).1)]
    rfl
  · simp

theorem count_del (h : (k,j)∈m.pairs) (i : ι) : ((m.del k).count i : ℤ)=m.count i-ind j i := by
  have hc := count_put_new (not_has_del (m := m) (k := k)) j i
  rw [put_del,put_of_mem h] at hc
  omega

theorem count_put {j' : ι} (h : (k,j')∈m.pairs) (j i : ι) :
    ((m.put k j).count i : ℤ)=m.count i-ind j' i+ind j i := by
  rw [← put_del,count_put_new not_has_del,count_del h]

end Keys

end RefMap

end Ext2fsX.Framework
