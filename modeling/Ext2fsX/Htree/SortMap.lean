import Ext2fsX.Htree.Map
import Mathlib.Data.List.Induction

namespace Ext2fsX.Htree

open Framework

/-- By the distance from `map` in entries, and which have been read or written. -/
structure MapMem where
  entry : ℤ → MapEntry
  touched : List ℤ

/-- The entries at `p` and `q` are swapped if that at `p` has the smaller hash. -/
def MapMem.exchange (m : MapMem) (p q : ℤ) : MapMem × Bool :=
  let touched := p::q::m.touched
  if (m.entry p).hash<(m.entry q).hash then
    (⟨Function.update (Function.update m.entry p (m.entry q)) q (m.entry p),touched⟩,true)
  else (⟨m.entry,touched⟩,false)

/-- `p` and `q` go down until `q` is before the map. `while (q-- > map)` enters its body with `q`
one below `top`. -/
def mapPass : ℕ → ℤ → ℤ → MapMem × Bool → Option (MapMem × Bool)
  | 0,_,_,_ => none
  | n+1,p,q,(m,more) =>
    if 0 ≤ q then
      let r := m.exchange p q
      mapPass n (p-1) (q-1) (r.1,more || r.2)
    else some (m,more)

def nextCount (count : UInt32) : UInt32 :=
  let count := count*10/13
  if count-9<2 then 11 else count

def combPhase (fuel : ℕ) (top : ℤ) : ℕ → UInt32 → MapMem → Option MapMem
  | 0,_,_ => none
  | n+1,count,m =>
    if 2 < count then
      let count := nextCount count
      (mapPass fuel top (top-count.toNat) (m,false)).bind fun r =>
        combPhase fuel top n count r.1
    else some m

def bubblePhase (fuel : ℕ) (top : ℤ) : ℕ → MapMem → Option MapMem
  | 0,_ => none
  | n+1,m =>
    (mapPass fuel top (top-1) (m,false)).bind fun r =>
      if r.2 then bubblePhase fuel top n r.1 else some r.1

def dxSortMap (fuel : ℕ) (count : UInt32) (m : MapMem) : Option MapMem :=
  let top : ℤ := count.toNat-1
  (combPhase fuel top fuel count m).bind (bubblePhase fuel top fuel)

def mapEntries (entry : ℤ → MapEntry) (count : ℕ) : List MapEntry :=
  (List.range count).map fun i : ℕ => entry i

/-- The memory has `l` in the map and `entry` elsewhere, and nothing else has been touched. -/
structure Shows (entry : ℤ → MapEntry) (l : List MapEntry) (m : MapMem) : Prop where
  inside : ∀ (i : ℕ) x,l[i]?=some x → m.entry i=x
  outside : ∀ i : ℤ,i<0 ∨ l.length ≤ i → m.entry i=entry i
  touched : ∀ i∈m.touched,0 ≤ i ∧ i<l.length

variable {entry : ℤ → MapEntry} {l pre suf : List MapEntry} {m : MapMem}

theorem Shows.exchange {p q : ℕ} {a b : MapEntry} (h : Shows entry l m) (hb : l[p]?=some b)
    (ha : l[q]?=some a) :
    Shows entry (if b.hash<a.hash then (l.set p a).set q b else l) (m.exchange p q).1 ∧
      (m.exchange p q).2=decide (b.hash<a.hash) := by
  obtain ⟨hp,-⟩ := List.getElem?_eq_some_iff.mp hb
  obtain ⟨hq,-⟩ := List.getElem?_eq_some_iff.mp ha
  have htouch : ∀ i∈(p : ℤ)::q::m.touched,0 ≤ i ∧ i<l.length := by
    intro i hi
    rcases List.mem_cons.mp hi with rfl | hi
    · omega
    · rcases List.mem_cons.mp hi with rfl | hi
      · omega
      · exact h.touched i hi
  simp only [MapMem.exchange,h.inside p b hb,h.inside q a ha]
  by_cases hlt : b.hash<a.hash
  · simp only [hlt,if_true,decide_true,and_true]
    refine ⟨fun i x hx => ?_,fun i hi => ?_,by simpa using htouch⟩ <;> dsimp only
    · rw [List.getElem?_set,List.length_set] at hx
      by_cases hiq : q=i
      · simp_all
      rw [if_neg hiq,List.getElem?_set] at hx
      have hne : (i : ℤ)≠q := by omega
      rw [Function.update_of_ne hne]
      by_cases hip : p=i
      · simp_all
      · have hne : (i : ℤ)≠p := by omega
        rw [Function.update_of_ne hne]
        exact h.inside i x (by simpa [hip] using hx)
    · simp only [List.length_set] at hi
      have h1 : i≠q := by omega
      have h2 : i≠p := by omega
      rw [Function.update_of_ne h1,Function.update_of_ne h2]
      exact h.outside i hi
  · simp only [hlt,if_false,decide_false,and_true]
    exact ⟨h.inside,h.outside,htouch⟩

/-- A pass over a gap does to the list what the library's pass does. -/
theorem Shows.pass {k : ℕ} {more : Bool} (h : Shows entry (pre++(gapPass MapEntry.hash k suf).1) m)
    (hk : k < suf.length) (hmore : more=(gapPass MapEntry.hash k suf).2) :
    ∃ m',Shows entry (gapPass MapEntry.hash k (pre++suf)).1 m' ∧
      ∀ fuel,pre.length<fuel → mapPass fuel (pre.length+k) (pre.length-1) (m,more)=
        some (m',(gapPass MapEntry.hash k (pre++suf)).2) := by
  induction pre using List.reverseRecOn generalizing suf m more with
  | nil =>
    refine ⟨m,h,fun fuel hf => ?_⟩
    obtain ⟨n,rfl⟩ := Nat.exists_eq_succ_of_ne_zero (Nat.ne_of_gt hf)
    simp [mapPass,hmore]
  | append_singleton pre a ih =>
    have hlen := (@gapPass_perm _ MapEntry.hash k suf).length_eq
    obtain ⟨b,hb⟩ : ∃ b,(gapPass MapEntry.hash k suf).1[k]?=some b :=
      ⟨_,List.getElem?_eq_getElem (by omega)⟩
    have hcons : gapPass MapEntry.hash k (a::suf)=
        (if b.hash<a.hash then b::(gapPass MapEntry.hash k suf).1.set k a
          else a::(gapPass MapEntry.hash k suf).1,
        more || decide (b.hash<a.hash)) := by
      rw [gapPass,hb]
      by_cases hlt : b.hash<a.hash
      · simp [hlt]
      · simp [hlt,hmore]
    rw [List.append_assoc,List.singleton_append] at h ⊢
    have hbat : (pre++a::(gapPass MapEntry.hash k suf).1)[pre.length+(k+1)]?=some b := by
      rw [List.getElem?_append_right (by omega)]
      simpa using hb
    have haat : (pre++a::(gapPass MapEntry.hash k suf).1)[pre.length]?=some a := by simp
    obtain ⟨hx,hflag⟩ := h.exchange hbat haat
    have hset : (if b.hash<a.hash then ((pre++a::(gapPass MapEntry.hash k suf).1).set
        (pre.length+(k+1)) a).set pre.length b else pre++a::(gapPass MapEntry.hash k suf).1)=
        pre++(gapPass MapEntry.hash k (a::suf)).1 := by
      rw [hcons]
      split <;> simp
    rw [hset] at hx
    obtain ⟨m',hm',hrun⟩ := ih hx (Nat.lt_succ_of_lt hk)
      (show (more || (m.exchange (pre.length+(k+1) : ℕ) pre.length).2)=_ by rw [hcons,hflag])
    refine ⟨m',hm',fun fuel hf => ?_⟩
    obtain ⟨n,rfl⟩ := Nat.exists_eq_succ_of_ne_zero (Nat.ne_zero_of_lt hf)
    have hq : ((pre++[a]).length : ℤ)-1=pre.length := by simp
    have hp : ((pre++[a]).length : ℤ)+k=(pre.length+(k+1) : ℕ) := by
      omega
    have hdown : ((pre.length+(k+1) : ℕ) : ℤ)-1=pre.length+k := by omega
    rw [mapPass,hq,hp,if_pos (Int.natCast_nonneg _),hdown]
    exact hrun n (by simpa using hf)

/-- Only a count that overflows gives this gap: each entry is compared with itself. -/
theorem Shows.pass_zero {more : Bool} {j : ℕ} (h : Shows entry l m) (hj : j ≤ l.length) :
    ∃ m',Shows entry l m' ∧ ∀ fuel,j<fuel → mapPass fuel (j-1) (j-1) (m,more)=some (m',more) := by
  induction j generalizing m with
  | zero =>
    refine ⟨m,h,fun fuel hf => ?_⟩
    obtain ⟨n,rfl⟩ := Nat.exists_eq_succ_of_ne_zero (Nat.ne_of_gt hf)
    simp [mapPass]
  | succ j ih =>
    obtain ⟨a,ha⟩ : ∃ a,l[j]?=some a := ⟨_,List.getElem?_eq_getElem hj⟩
    obtain ⟨hx,hflag⟩ := h.exchange ha ha
    rw [if_neg (Nat.lt_irrefl _)] at hx
    obtain ⟨m',hm',hrun⟩ := ih hx (Nat.le_of_succ_le hj)
    refine ⟨m',hm',fun fuel hf => ?_⟩
    obtain ⟨n,rfl⟩ := Nat.exists_eq_succ_of_ne_zero (Nat.ne_zero_of_lt hf)
    have hq : ((j+1 : ℕ) : ℤ)-1=j := by omega
    rw [mapPass,hq,if_pos (Int.natCast_nonneg _)]
    simpa [hflag] using hrun n (Nat.lt_of_succ_lt_succ hf)

/-- A pass with any gap up to the length. -/
theorem Shows.comb {gap : ℕ} (h : Shows entry l m) (hg : gap ≤ l.length) :
    ∃ l' m' more,l'.Perm l ∧ Shows entry l' m' ∧ (gap=1 → (l',more)=gapPass MapEntry.hash 0 l) ∧
      ∀ fuel,l.length<fuel →
        mapPass fuel ((l.length : ℤ)-1) (l.length-1-gap) (m,false)=some (m',more) := by
  cases gap with
  | zero =>
    obtain ⟨m',hm',hrun⟩ := @Shows.pass_zero entry l m false l.length h (Nat.le_refl _)
    exact ⟨l,m',false,List.Perm.refl l,hm',nofun,by simpa using hrun⟩
  | succ k =>
    have hlen : (l.drop (l.length-(k+1))).length=k+1 := by
      rw [List.length_drop]
      omega
    have hshort := @gapPass_short _ MapEntry.hash _ k (Nat.le_of_eq hlen)
    obtain ⟨m',hm',hrun⟩ := @Shows.pass entry (l.take (l.length-(k+1)))
      (l.drop (l.length-(k+1))) m k false
      (by rw [hshort,List.take_append_drop]; exact h) (by omega) (by rw [hshort])
    rw [List.take_append_drop] at hm' hrun
    refine ⟨_,m',(gapPass MapEntry.hash k l).2,gapPass_perm k l,hm',?_,fun fuel hf => ?_⟩
    · intro hk
      obtain rfl : k=0 := by omega
      rfl
    · have hr := hrun fuel (by simp; omega)
      have hpre : ((l.take (l.length-(k+1))).length : ℤ)=l.length-(k+1) := by simp; omega
      rw [← hr]
      congr 1 <;> push_cast <;> omega

theorem nextCount_lt {count : UInt32} (h : 2 < count) : (nextCount count).toNat < count.toNat := by
  have h2 : 2 < count.toNat := UInt32.lt_iff_toNat_lt.mp h
  have hc : (count*10/13).toNat=count.toNat*10%4294967296/13 := by
    rfl
  have hle := Nat.mod_le (count.toNat*10) 4294967296
  generalize count.toNat*10%4294967296=w at hc hle
  unfold nextCount
  dsimp only
  split
  case isTrue hreset =>
    -- the gap was 9 or 10, so the count is 12 at least
    have hr := UInt32.lt_iff_toNat_lt.mp hreset
    rw [UInt32.toNat_sub,hc] at hr
    have h9 : (9 : UInt32).toNat=9 := rfl
    have h2' : (2 : UInt32).toNat=2 := rfl
    have h11 : (11 : UInt32).toNat=11 := rfl
    omega
  case isFalse => omega

theorem Shows.combPhase {n : ℕ} {count : UInt32} (h : Shows entry l m)
    (hc : count.toNat ≤ l.length) (hn : count.toNat<n) :
    ∃ l' m',l'.Perm l ∧ Shows entry l' m' ∧ ∀ fuel k,l.length<fuel → count.toNat<k →
      combPhase fuel ((l.length : ℤ)-1) k count m=some m' := by
  induction n generalizing count l m with
  | zero => exact absurd hn (Nat.not_lt_zero _)
  | succ n ih =>
    by_cases h2 : 2 < count
    · have hlt := nextCount_lt h2
      obtain ⟨l1,m1,more,hperm,h1,-,hrun⟩ := @Shows.comb entry l m (nextCount count).toNat h (by omega)
      have hlen := hperm.length_eq
      obtain ⟨l2,m2,hperm2,hm2,hrun2⟩ := @ih l1 m1 (nextCount count) h1 (by omega) (by omega)
      refine ⟨l2,m2,hperm2.trans hperm,hm2,fun fuel k hf hk => ?_⟩
      obtain ⟨k,rfl⟩ := Nat.exists_eq_succ_of_ne_zero (Nat.ne_zero_of_lt hk)
      rw [Htree.combPhase,if_pos h2]
      dsimp only
      rw [hrun fuel hf,Option.bind_some,← hlen]
      exact hrun2 fuel k (by omega) (by omega)
    · refine ⟨l,m,List.Perm.refl l,h,fun fuel k _ hk => ?_⟩
      obtain ⟨k,rfl⟩ := Nat.exists_eq_succ_of_ne_zero (Nat.ne_zero_of_lt hk)
      rw [Htree.combPhase,if_neg h2]

/-- The second phase ends with the entries in order. -/
theorem Shows.bubblePhase {n : ℕ} (h : Shows entry l m) (hs : Settles MapEntry.hash n l) :
    ∃ l' m',l'.Perm l ∧ Shows entry l' m' ∧ l'.Pairwise (fun x y => x.hash ≤ y.hash) ∧
      ∀ fuel k,l.length<fuel → n ≤ k → bubblePhase fuel ((l.length : ℤ)-1) k m=some m' := by
  induction n generalizing l m with
  | zero => exact hs.elim
  | succ n ih =>
    obtain ⟨m1,h1,hrun⟩ : ∃ m1,Shows entry (gapPass MapEntry.hash 0 l).1 m1 ∧
        ∀ fuel,l.length<fuel → mapPass fuel ((l.length : ℤ)-1) (l.length-1-1) (m,false)=
          some (m1,(gapPass MapEntry.hash 0 l).2) := by
      by_cases hl : l=[]
      · subst hl
        refine ⟨m,h,fun fuel hf => ?_⟩
        obtain ⟨k,rfl⟩ := Nat.exists_eq_succ_of_ne_zero (Nat.ne_of_gt hf)
        simp [mapPass,gapPass]
      · obtain ⟨l1,m1,more,-,h1,hone,hrun⟩ := @Shows.comb entry l m 1 h (List.length_pos_iff.mpr hl)
        rw [← hone rfl]
        exact ⟨m1,h1,hrun⟩
    have hlen := (@gapPass_perm _ MapEntry.hash 0 l).length_eq
    cases hmore : (gapPass MapEntry.hash 0 l).2 with
    | false =>
      obtain ⟨he,hsort⟩ := gapPass_sorted hmore
      rw [he] at h1
      refine ⟨l,m1,List.Perm.refl l,h1,hsort,fun fuel k hf hk => ?_⟩
      obtain ⟨k,rfl⟩ := Nat.exists_eq_succ_of_ne_zero (Nat.ne_zero_of_lt hk)
      rw [Htree.bubblePhase,hrun fuel hf,hmore]
      rfl
    | true =>
      obtain ⟨l2,m2,hperm,hm2,hsort,hrun2⟩ := ih h1 (hs.resolve_left (by simp [hmore]))
      refine ⟨l2,m2,hperm.trans (gapPass_perm 0 l),hm2,hsort,fun fuel k hf hk => ?_⟩
      obtain ⟨k,rfl⟩ := Nat.exists_eq_succ_of_ne_zero (Nat.ne_zero_of_lt hk)
      rw [Htree.bubblePhase,hrun fuel hf,hmore,Option.bind_some,if_pos rfl,← hlen]
      exact hrun2 fuel k (by omega) (by omega)

theorem shows_mapEntries (entry : ℤ → MapEntry) (n : ℕ) :
    Shows entry (mapEntries entry n) ⟨entry,[]⟩ := by
  refine ⟨fun i x hx => ?_,fun _ _ => rfl,nofun⟩
  obtain ⟨hi,rfl⟩ := List.getElem?_eq_some_iff.mp hx
  simp [mapEntries]

theorem Shows.mapEntries_eq (h : Shows entry l m) : mapEntries m.entry l.length=l := by
  refine List.ext_getElem (by simp [mapEntries]) (fun i _ hi => ?_)
  simpa [mapEntries] using h.inside i _ (List.getElem?_eq_getElem hi)

/-- It returns for every count, touches nothing but the map, and leaves it in the order of the
hashes. -/
theorem dxSortMap_sorts (count : UInt32) (entry : ℤ → MapEntry) :
    ∃ m' n,(∀ fuel,n ≤ fuel → dxSortMap fuel count ⟨entry,[]⟩=some m') ∧
      (∀ i∈m'.touched,0 ≤ i ∧ i < count.toNat) ∧
      (∀ i : ℤ,i<0 ∨ count.toNat ≤ i → m'.entry i=entry i) ∧
      (mapEntries m'.entry count.toNat).Perm (mapEntries entry count.toNat) ∧
      (mapEntries m'.entry count.toNat).Pairwise (fun x y => x.hash ≤ y.hash) := by
  have h0 := shows_mapEntries entry count.toNat
  have hlen : (mapEntries entry count.toNat).length=count.toNat := by simp [mapEntries]
  obtain ⟨l1,m1,hperm1,h1,hrun1⟩ := h0.combPhase (Nat.le_of_eq hlen.symm) (Nat.lt_succ_self _)
  obtain ⟨l2,m2,hperm2,h2,hsort,hrun2⟩ :=
    h1.bubblePhase (settles_of_length_lt (Nat.lt_succ_self _))
  have hl1 : l1.length=count.toNat := hperm1.length_eq.trans hlen
  have hl2 : l2.length=count.toNat := hperm2.length_eq.trans hl1
  have he := h2.mapEntries_eq
  rw [hl2] at he
  refine ⟨m2,count.toNat+1,fun fuel hf => ?_,hl2 ▸ h2.touched,hl2 ▸ h2.outside,?_,?_⟩
  · rw [hlen] at hrun1
    rw [hl1] at hrun2
    rw [dxSortMap,hrun1 fuel fuel hf hf,Option.bind_some]
    exact hrun2 fuel fuel hf hf
  · rw [he]
    exact hperm2.trans hperm1
  · rw [he]
    exact hsort

end Ext2fsX.Htree
