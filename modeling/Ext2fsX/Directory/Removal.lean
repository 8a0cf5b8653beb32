import Ext2fsX.Directory.Locate

namespace Ext2fsX.Directory

open Framework Record

variable {cfg : Config}

@[simp] theorem entriesOf_append (xs ys : List Record) :
    entriesOf (xs++ys)=entriesOf xs++entriesOf ys := by
  simp [entriesOf]

@[simp] theorem entriesOf_nil : entriesOf []=[] := rfl

theorem entriesOf_cons (r : Record) (rs : List Record) :
    entriesOf (r::rs)=(if r.live then [(r.name,r.inode)] else [])++entriesOf rs := by
  cases hl : r.live <;> simp [entriesOf,hl]

theorem tiles_of_agree {m m' : Bytes} {o : ℕ} {rs : List Record}
    (h : Tiles recLen (readRecord m) (Record.Ok cfg) o rs)
    (ha : Bytes.Agree m m' o (o+total recLen rs)) :
    Tiles recLen (readRecord m') (Record.Ok cfg) o rs := by
  apply h.congr
  intro p r hp hle hr hok
  have hfit := hok.fits
  have hb := dirRecLen_bounds r.name.length
  rw [readRecord_congr,hr]
  rw [hr]
  exact ha.mono hp (by omega)

variable {d : Dir}

theorem Layout.replace {pre old post : List Record} (h : Layout cfg d (pre++old++post)) (m : Bytes)
    (new : List Record) (hlo : Bytes.Agree d.data m 0 (total recLen pre))
    (hhi : Bytes.Agree d.data m (total recLen pre+total recLen old) d.size)
    (hnew : Tiles recLen (readRecord m) (Record.Ok cfg) (total recLen pre) new)
    (hlen : total recLen new=total recLen old) :
    Layout cfg { d with data := m } (pre++new++post) := by
  have ht := h.tiles
  have hs := h.size_eq
  rw [tiles_append,tiles_append,Nat.zero_add,total_append,Nat.zero_add] at ht
  rw [total_append,total_append] at hs
  refine ⟨?_,?_,h.blocks⟩
  · rw [tiles_append,tiles_append,Nat.zero_add,total_append,Nat.zero_add,hlen]
    refine ⟨⟨tiles_of_agree ht.1.1 (hlo.mono (Nat.le_refl _) (by omega)),hnew⟩,?_⟩
    exact tiles_of_agree ht.2 (hhi.mono (Nat.le_refl _) (by omega))
  · rw [total_append,total_append,hlen]
    exact hs

variable {pre post : List Record} {r : Record}

section

variable (h : Layout cfg d (pre++r::post))

include h

theorem Layout.record_ok :
    readRecord d.data (total recLen pre)=r ∧ Record.Ok cfg (total recLen pre) r ∧
      total recLen pre+r.recLen≤d.size := by
  have ht := h.tiles
  have hs := h.size_eq
  rw [tiles_append,Nat.zero_add] at ht
  rw [total_append,total_cons] at hs
  exact ⟨ht.2.1,ht.2.2.1,by omega⟩

theorem Layout.rewriteOne (m : Bytes) (r' : Record)
    (hlo : Bytes.Agree d.data m 0 (total recLen pre))
    (hhi : Bytes.Agree d.data m (total recLen pre+r.recLen) d.size)
    (hr : readRecord m (total recLen pre)=r')
    (hok : Record.Ok cfg (total recLen pre) r') (hlen : r'.recLen=r.recLen) :
    Layout cfg { d with data := m } (pre++r'::post) := by
  have h1 : Layout cfg d (pre++[r]++post) := by simpa using h
  have h2 := h1.replace m [r'] hlo (by simpa using hhi) ⟨hr,hok,trivial⟩ (by simpa using hlen)
  simpa using h2

theorem Layout.clear {o : ℕ} (ho : o=total recLen pre) :
    Layout cfg { d with data := d.data.store o (Bytes.enc32 0) }
      (pre++{ r with inode := 0 }::post) := by
  subst ho
  obtain ⟨h1,h2,-⟩ := h.record_ok
  have hlen := h2.min
  rw [dirRecLen_one] at hlen
  apply h.rewriteOne
  · exact d.data.store_agree _ _ (.inl (Nat.le_refl _))
  · exact d.data.store_agree _ _ (.inr (by simp; omega))
  · rw [readRecord_store_inode d.data _ 0 (by decide),h1]
  · exact ⟨h2.min,h2.four,h2.fits,h2.block,Nat.zero_le _,by simp [Record.live]⟩
  · rfl

theorem Layout.point (hlive : r.live=true) (ip : Target cfg) {o : ℕ} (ho : o=total recLen pre) :
    Layout cfg { d with data := (d.data.store o (Bytes.enc32 ip.number)).store (o+7) [ip.fileType] }
      (pre++{ r with inode := ip.number, fileType := ip.fileType }::post) := by
  subst ho
  obtain ⟨h1,h2,-⟩ := h.record_ok
  have hlen := h2.min
  rw [dirRecLen_one] at hlen
  have hnum := Nat.lt_of_le_of_lt ip.le cfg.inodes_lt
  apply h.rewriteOne
  · exact (d.data.store_agree _ _ (.inl (Nat.le_refl _))).trans
      (Bytes.store_agree _ _ _ (.inl (by omega)))
  · exact (d.data.store_agree _ _ (.inr (by simp; omega))).trans
      (Bytes.store_agree _ _ _ (.inr (by simp; omega)))
  · rw [readRecord_store_fileType,readRecord_store_inode d.data _ _ hnum,h1]
  · exact ⟨h2.min,h2.four,h2.fits,h2.block,ip.le,fun _ => h2.named hlive⟩
  · rfl

end

theorem Layout.merge {p r : Record} (h : Layout cfg d (pre++[p]++r::post))
    (hblock : total recLen (pre++[p])%cfg.blocksize≠0) {o l : ℕ}
    (ho : o=total recLen pre) (hl : l=r.recLen) :
    Layout cfg { d with data := d.data.store (o+4) (Bytes.enc16 ((readRecord d.data o).recLen+l)) }
      (pre++{ p with recLen := p.recLen+r.recLen }::post) := by
  subst ho hl
  obtain ⟨-,hr,-⟩ := h.record_ok
  have hp : Layout cfg d (pre++p::r::post) := by simpa using h
  obtain ⟨h1,h2,-⟩ := hp.record_ok
  have hlen := h2.min
  rw [dirRecLen_one] at hlen
  have hbs := cfg.blocksize_bounds
  simp only [total_append,total_cons,total_nil,Nat.add_zero] at hblock hr
  have hmod := h2.mod_add.resolve_left hblock
  have hb := hr.block
  have hr4 := hr.four
  have hp4 := h2.four
  have hpf := h2.fits
  rw [h1]
  have hsplit : Layout cfg d (pre++[p,r]++post) := by simpa using h
  have hok : Record.Ok cfg (total recLen pre) { p with recLen := p.recLen+r.recLen } :=
    ⟨by rw [dirRecLen_one]; dsimp only; omega,by dsimp only; omega,by dsimp only; omega,
      by dsimp only; omega,h2.inode,h2.named⟩
  have hrep := hsplit.replace _ [{ p with recLen := p.recLen+r.recLen }]
    (d.data.store_agree (total recLen pre+4) (Bytes.enc16 (p.recLen+r.recLen))
      (.inl (by omega)))
    (d.data.store_agree _ _ (.inr (by simp; omega)))
    ⟨by rw [readRecord_store_recLen d.data _ _ (by omega),h1],hok,trivial⟩ (by simp)
  simpa using hrep

theorem lastLen_pos (h : Layout cfg d (pre++r::post)) (hne : pre≠[]) : 0<lastLen pre := by
  obtain ⟨init,p,rfl⟩ := (List.eq_nil_or_concat' pre).resolve_left hne
  have hp : Layout cfg d (init++p::(r::post)) := by simpa using h
  rw [lastLen_concat]
  exact hp.record_ok.2.1.pos

variable {name : List UInt8} {rs pre post : List Record}

theorem Layout.erase_located (h : Layout cfg d rs)
    (hl : Located cfg rs pre r post name d.offset d.count d.reclen) (env : Env) :
    ∃ m e,d.erase cfg env=.ok ({ d with data := m },e) ∧ (env.bad=[] → e=.ok) ∧
      ((e=.ok ∧ ∃ rs',Layout cfg { d with data := m } rs' ∧
          entriesOf rs'=entriesOf pre++entriesOf post) ∨ (e≠.ok ∧ m=d.data)) := by
  obtain ⟨⟨rfl,hit,-⟩,hoff,hcount,hreclen⟩ := hl
  have hbs := cfg.blocksize_bounds
  unfold Dir.erase
  by_cases hb : d.offset%cfg.blocksize=0
  · rw [if_pos hb] at hcount
    rw [if_pos hcount]
    split
    · rename_i hbad
      exact ⟨d.data,.eio,rfl,fun he => by simp [he] at hbad,.inr ⟨by simp,rfl⟩⟩
    · rw [if_neg (by omega)]
      refine ⟨_,.ok,rfl,fun _ => rfl,.inl ⟨rfl,_,h.clear hoff,?_⟩⟩
      simp [entriesOf_cons,Record.live]
  rw [if_neg hb] at hcount
  have hne : pre≠[] := by
    rintro rfl
    rw [hoff] at hb
    exact hb (Nat.zero_mod _)
  have hpos := lastLen_pos h hne
  obtain ⟨init,p,rfl⟩ := (List.eq_nil_or_concat' pre).resolve_left hne
  rw [lastLen_concat] at hcount hpos
  have hp : Layout cfg d (init++p::(r::post)) := by simpa using h
  have h2 := hp.record_ok.2.1
  have hblock := h2.block
  have hmin := h2.min
  rw [dirRecLen_one] at hmin
  have htotal : d.offset=total recLen init+p.recLen := by simpa using hoff
  have hprev : d.offset-d.count=total recLen init := by omega
  dsimp only
  rw [if_neg (by omega),if_neg (by omega)]
  split
  · rename_i hbad
    exact ⟨d.data,.eio,rfl,fun he => by simp [he] at hbad,.inr ⟨by simp,rfl⟩⟩
  · rw [if_neg (by rw [hprev]; omega)]
    rw [hoff] at hb
    refine ⟨_,.ok,rfl,fun _ => rfl,.inl ⟨rfl,_,h.merge hb hprev (hreclen (by omega)),?_⟩⟩
    simp [entriesOf_cons,Record.live]

theorem Layout.rewrite_hit (h : Layout cfg d rs)
    (hit : FirstHit name rs pre r post) (hoff : d.offset=total recLen pre) (ip : Target cfg)
    (env : Env) :
    ∃ m e,d.rewrite cfg ip env=.ok ({ d with data := m },e) ∧ (env.bad=[] → e=.ok) ∧
      ((e=.ok ∧ ∃ rs',Layout cfg { d with data := m } rs' ∧
          entriesOf rs'=entriesOf pre++(name,ip.number)::entriesOf post) ∨
        (e≠.ok ∧ m=d.data)) := by
  obtain ⟨rfl,hit,-⟩ := hit
  obtain ⟨h1,h2,-⟩ := h.record_ok
  have hblock := h2.block
  have hmin := h2.min
  rw [dirRecLen_one] at hmin
  have hlive : ip.number≠0 := Nat.ne_of_gt ip.pos
  have hname : r.name=name := by simpa [Record.hit] using (Bool.and_eq_true_iff.mp hit).2
  unfold Dir.rewrite
  split
  · rename_i hbad
    exact ⟨d.data,.eio,rfl,fun he => by simp [he] at hbad,.inr ⟨by simp,rfl⟩⟩
  · rw [if_neg (by rw [hoff]; omega)]
    refine ⟨_,.ok,rfl,fun _ => rfl,.inl ⟨rfl,_,h.point (Bool.and_eq_true_iff.mp hit).1 ip hoff,?_⟩⟩
    simp [entriesOf_cons,Record.live,hlive,hname]

theorem FirstHit.entries (h : FirstHit name rs pre r post) :
    entriesOf rs=entriesOf pre++(name,r.inode)::entriesOf post := by
  obtain ⟨rfl,hit,-⟩ := h
  obtain ⟨hl,hn⟩ := Bool.and_eq_true_iff.mp hit
  have hn : r.name=name := by simpa using hn
  simp [entriesOf_cons,hl,hn]

variable {α β : Type}

variable {xs ys : List (α × β)} {a : α} {b : β}

theorem ne_of_nodup (h : ((xs++(a,b)::ys).map Prod.fst).Nodup) : (∀ x∈xs,x.1≠a) ∧ ∀ y∈ys,y.1≠a := by
  rw [List.map_append,List.nodup_append,List.map_cons,List.nodup_cons] at h
  constructor
  · intro x hx
    exact h.2.2 x.1 (List.mem_map_of_mem hx) a (by simp)
  · intro y hy he
    exact h.2.1.1 (List.mem_map.mpr ⟨y,hy,he⟩)

theorem filter_of_nodup [DecidableEq α] (h : ((xs++(a,b)::ys).map Prod.fst).Nodup) :
    (xs++(a,b)::ys).filter (fun x => x.1≠a)=xs++ys := by
  obtain ⟨hx,hy⟩ := ne_of_nodup h
  rw [List.filter_append,List.filter_cons_of_neg (by simp),
    List.filter_eq_self.mpr (by simpa using hx),List.filter_eq_self.mpr (by simpa using hy)]

theorem map_of_nodup [DecidableEq α] {c : β} (h : ((xs++(a,b)::ys).map Prod.fst).Nodup) :
    (xs++(a,b)::ys).map (fun x => if x.1=a then (a,c) else x)=xs++(a,c)::ys := by
  obtain ⟨hx,hy⟩ := ne_of_nodup h
  rw [List.map_append,List.map_cons,if_pos rfl]
  congr 1
  · conv_rhs => rw [← List.map_id xs]
    apply List.map_congr_left
    intro x hm
    exact if_neg (hx x hm)
  · congr 1
    conv_rhs => rw [← List.map_id ys]
    apply List.map_congr_left
    intro y hm
    exact if_neg (hy y hm)

end Ext2fsX.Directory
