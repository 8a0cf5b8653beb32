import Mathlib.Data.List.Basic

namespace Ext2fsX.Framework

variable {β : Type*} (holds : β → ℕ → Prop)

/-- A bucket holds hashes from its key on and below the next key, where an odd key marks a bucket
that goes on with the even hash below it. -/
def Ranged : List (ℕ × β) → Prop
  | [] => True
  | x::xs => (∀ h,holds x.2 h → x.1/2*2≤h) ∧
      (∀ y∈xs.head?,x.1≤y.1 ∧ ∀ h,holds x.2 h → h<y.1) ∧ Ranged xs

variable {holds} {pre post : List (ℕ × β)} {x : ℕ × β} {xs : List (ℕ × β)}

theorem Ranged.keys_le (hr : Ranged holds xs) : xs.Pairwise (fun a b => a.1≤b.1) := by
  induction xs with
  | nil => exact List.Pairwise.nil
  | cons a xs ih =>
    obtain ⟨-,h2,h3⟩ := hr
    have hp := ih h3
    refine List.pairwise_cons.mpr ⟨?_,hp⟩
    intro b hb
    cases xs with
    | nil => cases hb
    | cons c xs =>
      have hac := (h2 c rfl).1
      rcases List.mem_cons.mp hb with rfl | hb
      · exact hac
      · exact Nat.le_trans hac ((List.pairwise_cons.mp hp).1 b hb)

theorem Ranged.of_append {xs ys : List (ℕ × β)} (hr : Ranged holds (xs++ys)) : Ranged holds ys := by
  induction xs with
  | nil => exact hr
  | cons a xs ih => exact ih hr.2.2

/-- The hashes of a bucket are below every later key. -/
theorem Ranged.lt {h : ℕ} (hr : Ranged holds (x::post)) (hx : holds x.2 h) {y : ℕ × β}
    (hy : y∈post) : h<y.1 := by
  cases post with
  | nil => cases hy
  | cons z post =>
    have hz := (hr.2.1 z rfl).2 h hx
    have hp := hr.2.2.keys_le
    rcases List.mem_cons.mp hy with rfl | hy
    · exact hz
    · exact Nat.lt_of_lt_of_le hz ((List.pairwise_cons.mp hp).1 y hy)

theorem Ranged.ge {h : ℕ} (hr : Ranged holds xs) (hx : x∈xs) (hh : holds x.2 h) : x.1/2*2≤h := by
  induction xs with
  | nil => cases hx
  | cons a xs ih =>
    rcases List.mem_cons.mp hx with rfl | hx
    · exact hr.1 h hh
    · exact ih hr.2.2 hx

variable {holds' : β → ℕ → Prop}

theorem Ranged.mono (hr : Ranged holds xs) (hle : ∀ x∈xs,∀ h,holds' x.2 h → holds x.2 h) : Ranged holds' xs := by
  induction xs with
  | nil => trivial
  | cons a xs ih =>
    obtain ⟨ha,hxs⟩ := List.forall_mem_cons.mp hle
    refine ⟨fun h hh => hr.1 h (ha h hh),?_,ih hr.2.2 hxs⟩
    intro y hy
    exact ⟨(hr.2.1 y hy).1,fun h hh => (hr.2.1 y hy).2 h (ha h hh)⟩

/-- From a bucket on everything is replaced, under the same first key. -/
theorem Ranged.change {new : List (ℕ × β)} (hr : Ranged holds (pre++x::post))
    (hpre : ∀ y∈pre,∀ h,holds' y.2 h → holds y.2 h) (hnew : Ranged holds' (x::new)) : Ranged holds' (pre++x::new) := by
  induction pre with
  | nil => exact hnew
  | cons a pre ih =>
    obtain ⟨h1,h2,h3⟩ := hr
    obtain ⟨ha,hpre'⟩ := List.forall_mem_cons.mp hpre
    refine ⟨fun h hh => h1 h (ha h hh),?_,ih h3 hpre'⟩
    intro y hy
    have hy' : y∈(pre++x::post).head? := by
      cases pre with
      | _ => simpa using hy
    exact ⟨(h2 y hy').1,fun h hh => (h2 y hy').2 h (ha h hh)⟩

/-- The bucket `x` is the last one whose key is not above `h`. -/
structure Probed (h : ℕ) (x : ℕ × β) (post : List (ℕ × β)) : Prop where
  here : x.1≤h
  after : ∀ y∈post,h<y.1

/-- Keys in order that are above `h`, up to one that continues `h`, all continue it. -/
theorem mem_run {h : ℕ} (hpw : post.Pairwise (fun a b => a.1≤b.1)) (hafter : ∀ y∈post,h<y.1)
    (heven : h%2=0) {y : ℕ × β} (hy : y∈post) (hge : y.1/2*2≤h) :
    y∈post.takeWhile (fun z => decide (z.1/2*2=h)) := by
  induction post with
  | nil => cases hy
  | cons z post ih =>
    obtain ⟨hz,hafter'⟩ := List.forall_mem_cons.mp hafter
    obtain ⟨hzy,hpw'⟩ := List.pairwise_cons.mp hpw
    have hzk : z.1≤y.1 := by
      rcases List.mem_cons.mp hy with rfl | hmem
      · exact Nat.le_refl _
      · exact hzy y hmem
    have hzh : z.1/2*2=h := by omega
    rw [List.takeWhile_cons_of_pos (by simpa using hzh)]
    rcases List.mem_cons.mp hy with rfl | hmem
    · exact List.mem_cons_self
    · exact List.mem_cons_of_mem z (ih hpw' hafter' hmem)

section

variable (hr : Ranged holds (pre++x::post))

include hr

/-- A hash is in that bucket, or in one of those right behind it whose keys continue it. -/
theorem Ranged.run {h : ℕ} (hp : Probed h x post) (heven : h%2=0)
    {y : ℕ × β} (hy : y∈pre++x::post) (hh : holds y.2 h) :
    y=x ∨ y∈post.takeWhile (fun z => decide (z.1/2*2=h)) := by
  have hge := hr.ge hy hh
  rcases List.mem_append.mp hy with hpre | hy
  · -- the key of `x` is behind such a bucket and not above `h`
    obtain ⟨p,q,rfl⟩ := List.append_of_mem hpre
    rw [List.append_assoc] at hr
    have hlt := hr.of_append.lt hh (y := x) (by simp)
    have := hp.here
    omega
  · rcases List.mem_cons.mp hy with rfl | hpost
    · exact .inl rfl
    · have hkeys := hr.of_append.keys_le
      exact .inr (mem_run (List.pairwise_cons.mp hkeys).2 hp.after heven hpost hge)

section

variable (hsame : ∀ y∈pre++post,∀ h,holds' y.2 h → holds y.2 h)

include hsame

/-- One bucket gets other hashes, between its key and the next. -/
theorem Ranged.update (hx : ∀ h,holds' x.2 h → x.1/2*2≤h ∧ ∀ y∈post.head?,h<y.1) :
    Ranged holds' (pre++x::post) := by
  have htail := hr.of_append
  apply hr.change (fun y hy => hsame y (List.mem_append_left post hy))
  refine ⟨fun h hh => (hx h hh).1,?_,?_⟩
  · exact fun y hy => ⟨(htail.2.1 y hy).1,fun h hh => (hx h hh).2 y hy⟩
  · exact htail.2.2.mono (fun y hy => hsame y (List.mem_append_right pre hy))

/-- A bucket is split in two at the key `k`. -/
theorem Ranged.split {k : ℕ} {b : β} (hlow : ∀ h,holds' x.2 h → x.1/2*2≤h ∧ h<k)
    (hupp : ∀ h,holds' b h → k/2*2≤h ∧ ∀ y∈post.head?,h<y.1) (hk : x.1≤k)
    (hk' : ∀ y∈post.head?,k≤y.1) :
    Ranged holds' (pre++x::(k,b)::post) := by
  apply hr.change (fun y hy => hsame y (List.mem_append_left post hy))
  refine ⟨fun h hh => (hlow h hh).1,?_,fun h hh => (hupp h hh).1,?_,?_⟩
  · intro y hy
    obtain rfl : (k,b)=y := by simpa using hy
    exact ⟨hk,fun h hh => (hlow h hh).2⟩
  · exact fun y hy => ⟨hk' y hy,fun h hh => (hupp h hh).2 y hy⟩
  · exact hr.of_append.2.2.mono (fun y hy => hsame y (List.mem_append_right pre hy))

end

end

end Ext2fsX.Framework
