import Mathlib.Data.List.Basic
import Mathlib.Order.Lattice

namespace Ext2fsX.Framework

/-- The entries of one key: the first one entered, and the chain behind it. -/
structure Bucket (α : Type) where
  first : α
  rest : List α
  deriving DecidableEq

variable {κ α : Type} [LinearOrder κ] (key : α → κ)

def Bucket.chain (b : Bucket α) : List α := b.first::b.rest

/-- A new key goes to its place in the order, one that is there directly behind the first entry of
that key. -/
def enter (a : α) : List (Bucket α) → List (Bucket α)
  | [] => [⟨a,[]⟩]
  | b::bs =>
    if key a=key b.first then { b with rest := a::b.rest }::bs
    else if key a<key b.first then ⟨a,[]⟩::b::bs
    else b::enter a bs

def enterAll (as : List α) (bs : List (Bucket α)) : List (Bucket α) :=
  as.foldl (fun bs a => enter key a bs) bs

variable {key} {a : α} {bs : List (Bucket α)}

theorem enter_cons (b : Bucket α) : enter key a (b::bs)=
    if key a=key b.first then { b with rest := a::b.rest }::bs
    else if key a<key b.first then ⟨a,[]⟩::b::bs
    else b::enter key a bs := rfl

variable (as : List α)

theorem enterAll_cons : enterAll key (a::as) bs=enterAll key as (enter key a bs) := rfl

theorem enterAll_append (as cs : List α) :
    enterAll key (as++cs) bs=enterAll key cs (enterAll key as bs) := List.foldl_append

theorem mem_enter {c : Bucket α} (h : c∈enter key a bs) :
    key c.first=key a ∨ ∃ b∈bs,key c.first=key b.first := by
  induction bs with
  | nil =>
    rw [enter,List.mem_singleton] at h
    exact .inl (by rw [h])
  | cons b bs ih =>
    unfold enter at h
    split at h
    · rcases List.mem_cons.mp h with rfl | h
      · exact .inr ⟨b,List.mem_cons_self,rfl⟩
      · exact .inr ⟨c,List.mem_cons_of_mem b h,rfl⟩
    split at h
    · rcases List.mem_cons.mp h with rfl | h
      · exact .inl rfl
      · exact .inr ⟨c,h,rfl⟩
    · rcases List.mem_cons.mp h with rfl | h
      · exact .inr ⟨c,List.mem_cons_self,rfl⟩
      · rcases ih h with h | ⟨d,hd,he⟩
        · exact .inl h
        · exact .inr ⟨d,List.mem_cons_of_mem b hd,he⟩

theorem enter_append {cs : List (Bucket α)} (h : ∀ b∈bs,key b.first<key a) :
    enter key a (bs++cs)=bs++enter key a cs := by
  induction bs with
  | nil => rfl
  | cons b bs ih =>
    obtain ⟨hb,hbs⟩ := List.forall_mem_cons.mp h
    rw [List.cons_append,enter_cons,if_neg (ne_of_gt hb),if_neg (not_lt_of_gt hb),ih hbs]
    rfl

/-- Entries behind all the keys that are there make up buckets of their own. -/
theorem enterAll_behind (bs cs : List (Bucket α)) (h : ∀ b∈bs,∀ a∈as,key b.first<key a) :
    enterAll key as (bs++cs)=bs++enterAll key as cs := by
  induction as generalizing cs with
  | nil => rfl
  | cons a as ih =>
    rw [enterAll_cons,enterAll_cons,enter_append (fun b hb => h b hb a List.mem_cons_self)]
    exact ih _ (fun b hb c hc => h b hb c (List.mem_cons_of_mem a hc))

theorem mem_enterAll {as : List α} {c : Bucket α} (h : c∈enterAll key as bs) :
    (∃ a∈as,key c.first=key a) ∨ ∃ b∈bs,key c.first=key b.first := by
  induction as generalizing bs with
  | nil => exact .inr ⟨c,h,rfl⟩
  | cons a as ih =>
    rcases ih h with ⟨d,hd,he⟩ | ⟨d,hd,he⟩
    · exact .inl ⟨d,List.mem_cons_of_mem a hd,he⟩
    · rcases mem_enter hd with hk | ⟨b,hb,hk⟩
      · exact .inl ⟨a,List.mem_cons_self,he.trans hk⟩
      · exact .inr ⟨b,hb,he.trans hk⟩

theorem chains_enter : ((enter key a bs).flatMap Bucket.chain).Perm
    (a::bs.flatMap Bucket.chain) := by
  induction bs with
  | nil => exact List.Perm.refl _
  | cons b bs ih =>
    unfold enter
    split
    · exact List.Perm.swap _ _ _
    · split
      · exact List.Perm.refl _
      · rw [List.flatMap_cons,List.flatMap_cons]
        exact (ih.append_left _).trans List.perm_middle

theorem chains_enterAll (bs : List (Bucket α)) : ((enterAll key as bs).flatMap Bucket.chain).Perm
    (as++bs.flatMap Bucket.chain) := by
  induction as generalizing bs with
  | nil => exact List.Perm.refl _
  | cons a as ih =>
    exact ((ih _).trans (chains_enter.append_left as)).trans List.perm_middle

end Ext2fsX.Framework
