import Ext2fsX.Reuse.Handles

namespace Ext2fsX.Reuse

open Framework

/-! What happens to a number does not depend on the slot that is written over, only on the one
that is read. So a run of one or two numbers can be computed without the table. -/

variable (env : Env)

theorem update_fst (now : Time) (dev : Bool) (ip : Inode) (slot slot' : Slot) :
    (update env now dev (ip,slot)).1=(update env now dev (ip,slot')).1 := by
  unfold update
  dsimp only
  split <;> rfl

variable (r : Rest)

variable (dev : Bool)

variable (ip : Inode)

variable (slot slot' : Slot)

theorem truncateVp_fst :
    (truncateVp env r dev (ip,slot)).1=(truncateVp env r dev (ip,slot')).1 := by
  unfold truncateVp updateVp
  cases r.truncate ip.contents with
  | none => rfl
  | some c =>
    dsimp only
    split
    · rfl
    · exact update_fst env (r.time 0) dev _ slot slot'

theorem settle_fst :
    (settle env r dev (ip,slot)).1=(settle env r dev (ip,slot')).1 := by
  unfold settle updateVp
  dsimp only
  split
  · split
    · rfl
    · split
      · rfl
      · exact update_fst env (r.time 1) dev ip slot slot'
  · rfl

theorem destroy_fst :
    (destroy env r dev (ip,slot)).1=(destroy env r dev (ip,slot')).1 := by
  unfold destroy
  dsimp only
  rw [truncateVp_fst env r dev ip slot slot']

theorem inactive_fst :
    (inactive env r dev (ip,slot)).ip=(inactive env r dev (ip,slot')).ip ∧
      (inactive env r dev (ip,slot)).freed=(inactive env r dev (ip,slot')).freed := by
  unfold inactive
  dsimp only
  split
  · exact ⟨rfl,rfl⟩
  split
  · have hd := destroy_fst env r dev (discardPrealloc ip) slot slot'
    refine ⟨?_,rfl⟩
    generalize destroy env r dev (discardPrealloc ip,slot)=y at hd ⊢
    generalize destroy env r dev (discardPrealloc ip,slot')=z at hd ⊢
    obtain ⟨y,t⟩ := y
    obtain ⟨z,t'⟩ := z
    obtain rfl : y=z := hd
    exact settle_fst env r dev y t t'
  · exact ⟨settle_fst env r dev (discardPrealloc ip) slot slot',rfl⟩

theorem act_fst (a : Act) (read : Slot) (x : Number) (slot slot' : Slot) :
    (act a read x slot).map Prod.fst=(act a read x slot').map Prod.fst := by
  cases a with
  | load env =>
    simp only [act]
    split <;> rfl
  | create env q =>
    simp only [act]
    split
    · have hb : (q.build env (x.vget env q.mode read) slot).1=
          (q.build env (x.vget env q.mode read) slot').1 := update_fst env _ _ _ slot slot'
      simp [hb]
    · rfl
  | update env now =>
    cases hc : x.core with
    | none => simp [act,hc]
    | some c => simp [act,hc,update_fst env now c.dev c.ip slot slot']
  | inactive env r =>
    cases hc : x.core with
    | none => simp [act,hc]
    | some c =>
      obtain ⟨hip,hfreed⟩ := inactive_fst env r c.dev c.ip slot slot'
      cases hr : r.rdonly <;> simp [act,hc,hr,hip,hfreed]
  | reclaim env now =>
    cases hc : x.core with
    | none => simp [act,hc]
    | some c => cases hi : c.idle <;> simp [act,hc,hi]
  | vptofh =>
    cases hc : x.core with
    | none => simp [act,hc]
    | some c => by_cases hm : c.ip.mode=0 <;> simp [act,hc,hm]
  | _ => cases hc : x.core <;> simp [act,hc]

theorem act_read (a : Act) {read read' : Slot} {x : Number} (h : x.core≠none ∨ read=read')
    (slot : Slot) : act a read x slot=act a read' x slot := by
  rcases h with h | rfl
  · have hv : ∀ env mode,x.vget env mode read=x.vget env mode read' := by
      intro env mode
      unfold Number.vget
      cases hc : x.core with
      | none => exact absurd hc h
      | some c => rfl
    cases a <;> simp only [act,hv]
  · rfl

def lagRun (read : Slot) : List Act → Number → Option Number
  | [],x => some x
  | a::as,x =>
    if x.incarnation<2^31 then (act a read x read).bind fun r => lagRun read as r.1 else none

/-- Two numbers that are written to one slot. The second, when it is not in core, finds `live`. -/
def sharedRun (live : Slot) : List (Bool × Act) → Number × Number × Slot →
    Option (Number × Number × Slot)
  | [],z => some z
  | (true,a)::as,(x,y,t) =>
    if x.incarnation<2^31 then (act a t x t).bind fun r => sharedRun live as (r.1,y,r.2)
    else none
  | (false,a)::as,(x,y,t) =>
    if y.core≠none ∨ t=live then (act a t y t).bind fun r => sharedRun live as (x,r.1,r.2)
    else none

variable {fs : Mount.Fs} {ino j : ℕ}

theorem next_eq (hv : fs.ValidIno ino) {s : Volume} {a : Act} {wild : Slot} {y : Number}
    {slot' : Slot}
    (h : act a (s.read fs wild ino) (s.number ino) (s.table (fs.updateSlot ino))=some (y,slot')) :
    (history fs).next ⟨ino,a,wild⟩ s=some
      { number := Function.update s.number ino y
        table := Function.update s.table (fs.updateSlot ino) slot' } := by
  change Event.next fs ⟨ino,a,wild⟩ s=_
  unfold Event.next
  rw [if_pos hv]
  rw [h]
  rfl

theorem lagRun_reach (hv : fs.ValidIno ino) (hne : fs.vgetSlot ino≠fs.updateSlot ino) {read : Slot}
    {as : List Act} {s : Volume} {x : Number} (hreach : (history fs).Reach (Sparing ino) s)
    (hread : s.read fs read ino=read) (hx : lagRun read as (s.number ino)=some x) :
    ∃ s',(history fs).Reach (Sparing ino) s' ∧ s'.number ino=x ∧ s'.read fs read ino=read := by
  induction as generalizing s with
  | nil => exact ⟨s,hreach,Option.some.inj hx,hread⟩
  | cons a as ih =>
    obtain ⟨hk,hx⟩ := Option.ite_none_right_eq_some.mp hx
    obtain ⟨r,hr,hx⟩ := Option.bind_eq_some_iff.mp hx
    have hfst := act_fst a read (s.number ino) (s.table (fs.updateSlot ino)) read
    rw [hr] at hfst
    obtain ⟨⟨y,slot'⟩,hact,hy⟩ := Option.map_eq_some_iff.mp hfst
    have hy : y=r.1 := hy
    rw [←hread] at hact
    have hn := next_eq hv hact
    refine ih (hreach.step (fun _ _ _ _ => hk) hn) ?_ ?_
    · unfold Volume.read at hread ⊢
      dsimp only
      rw [Function.update_of_ne hne]
      exact hread
    · dsimp only
      rw [Function.update_self,hy]
      exact hx

/-- The state of two numbers that are written to one slot, which the first also reads. -/
structure Shared (fs : Mount.Fs) (ino j : ℕ) (live : Slot) (s : Volume)
    (z : Number × Number × Slot) : Prop where
  first : s.number ino=z.1
  second : s.number j=z.2.1
  slot : s.table (fs.updateSlot ino)=z.2.2
  other : ∀ l,l≠fs.updateSlot ino → s.table l=live

theorem Shared.step {live : Slot} {s : Volume} {x y y' : Number} {t t' : Slot}
    (h : Shared fs ino j live s (x,y,t)) (hne : j≠ino) (hone : fs.updateSlot j=fs.updateSlot ino) :
    Shared fs ino j live
        { number := Function.update s.number ino y'
          table := Function.update s.table (fs.updateSlot ino) t' } (y',y,t') ∧
      Shared fs ino j live
        { number := Function.update s.number j y'
          table := Function.update s.table (fs.updateSlot j) t' } (x,y',t') := by
  have hother : ∀ l,l≠fs.updateSlot ino →
      Function.update s.table (fs.updateSlot ino) t' l=live := by
    intro l hl
    rw [Function.update_of_ne hl]
    exact h.other l hl
  rw [hone]
  refine ⟨⟨Function.update_self ..,?_,Function.update_self ..,hother⟩,
    ⟨?_,Function.update_self ..,Function.update_self ..,hother⟩⟩
  · exact (Function.update_of_ne hne ..).trans h.second
  · exact (Function.update_of_ne hne.symm ..).trans h.first

theorem sharedRun_reach (ht : Mount.Tables fs) (hv : fs.ValidIno ino) (hvj : fs.ValidIno j)
    (hne : j≠ino) (hread : fs.vgetSlot ino=fs.updateSlot ino)
    (hone : fs.updateSlot j=fs.updateSlot ino) {live : Slot} {as : List (Bool × Act)} {s : Volume}
    {z z' : Number × Number × Slot} (hreach : (history fs).Reach (Sparing ino) s)
    (hs : Shared fs ino j live s z) (hz : sharedRun live as z=some z') :
    ∃ s',(history fs).Reach (Sparing ino) s' ∧ Shared fs ino j live s' z' := by
  induction as generalizing s z with
  | nil => exact ⟨s,hreach,Option.some.inj hz ▸ hs⟩
  | cons a as ih =>
    obtain ⟨x,y,t⟩ := z
    obtain ⟨who,a⟩ := a
    cases who with
    | true =>
      obtain ⟨hk,hz⟩ := Option.ite_none_right_eq_some.mp hz
      obtain ⟨⟨x',t'⟩,hr,hz⟩ := Option.bind_eq_some_iff.mp hz
      have hfind := inBuffer_read ht s live hread
      have hact : act a (s.read fs live ino) (s.number ino) (s.table (fs.updateSlot ino))=
          some (x',t') := by
        rw [hfind,hs.slot,hs.first]
        exact hr
      have hok : Sparing ino s ⟨ino,a,live⟩ := by
        intro _ _ _ _
        rw [hs.first]
        exact hk
      exact ih (hreach.step hok (next_eq hv hact)) (hs.step hne hone).1 hz
    | false =>
      obtain ⟨hfound,hz⟩ := Option.ite_none_right_eq_some.mp hz
      obtain ⟨⟨y',t'⟩,hr,hz⟩ := Option.bind_eq_some_iff.mp hz
      have hfind : s.read fs live j=live ∨ s.read fs live j=t := by
        unfold Volume.read
        split
        · by_cases hl : fs.vgetSlot j=fs.updateSlot ino
          · rw [hl]
            exact Or.inr hs.slot
          · exact Or.inl (hs.other _ hl)
        · exact Or.inl rfl
      have hact : act a (s.read fs live j) (s.number j) (s.table (fs.updateSlot j))=
          some (y',t') := by
        rw [hone,hs.slot,hs.second,← hr]
        apply act_read
        rcases hfound with hc | rfl
        · exact Or.inl hc
        · exact Or.inr (hfind.elim id id)
      have hok : Sparing ino s ⟨j,a,live⟩ := fun he => absurd he hne
      exact ih (hreach.step hok (next_eq hvj hact)) (hs.step hne hone).2 hz

def createFile : Act := .create sampleEnv (.create 0x1A4)

def reclaimNow : Act := .reclaim sampleEnv ⟨3000,0⟩

def twoLives : List Act :=
  [createFile,.vptofh,.unlink,.inactive sampleEnv quietRest,reclaimNow,createFile]

def unusedNumber : Number := ⟨none,false,0,[]⟩

def firstFile : Slot :=
  ((act createFile (freeSlot 0 0 0) unusedNumber (freeSlot 0 0 0)).map Prod.snd).getD
    (freeSlot 0 0 0)

/-- The second number loads what the first file wrote and writes it again over the second
file. -/
def twoWriters : List (Bool × Act) :=
  [(true,createFile),(true,.vptofh),(false,.load sampleEnv),(true,.unlink),
    (true,.inactive sampleEnv quietRest),(true,reclaimNow),(true,createFile),
    (false,.use (.change { vget sampleEnv 0 firstFile with
      flag := ⟨false,true,false,false,false⟩ })),
    (false,.update sampleEnv ⟨4000,0⟩),(true,.inactive sampleEnv quietRest),(true,reclaimNow)]

/-- What `ext2_fhtovp` answers when the inode is loaded from `read`. -/
def answer (x : Number) (read : Slot) (h : Handle) : Option Inode :=
  let ip := (x.vget sampleEnv 0 read).ip
  if ip.mode=0 ∨ ip.gen≠h.gen ∨ ip.links≤0 then none else some ip

theorem fhtovp_eq_answer (hv : fs.ValidIno ino) (h2 : 2 ≤ ino) (s : Volume) (wild : Slot)
    (h : Handle) :
    fhtovp fs s sampleEnv wild ino h=answer (s.number ino) (s.read fs wild ino) h := by
  have hin : ¬(ino<2 ∨ fs.groupsCount*fs.ipg < ino) := by
    have hle := hv.2
    rw [Nat.mul_comm] at hle
    omega
  unfold fhtovp
  rw [if_neg hin]
  rfl

theorem twoLives_stale : (lagRun (freeSlot 0 0 0) twoLives unusedNumber).map (fun x =>
      decide (x.handles=[⟨13,1⟩] ∧ x.incarnation=2 ∧
        (answer x (freeSlot 0 0 0) ⟨13,1⟩).isSome))=some true := by
  decide +kernel

theorem twoWriters_stale :
    (sharedRun firstFile twoWriters (unusedNumber,⟨none,true,0,[]⟩,freeSlot 0 0 0)).map (fun z =>
      decide (z.1.handles=[⟨13,1⟩] ∧ z.1.incarnation=2 ∧
        (answer z.1 z.2.2 ⟨13,1⟩).isSome))=some true := by
  decide +kernel

theorem not_handlesSafe (hv : fs.ValidIno ino) (h2 : 2 ≤ ino) {s : Volume} {wild : Slot}
    (hh : (s.number ino).handles=[⟨13,1⟩]) (hi : (s.number ino).incarnation=2)
    (ha : (answer (s.number ino) (s.read fs wild ino) ⟨13,1⟩).isSome=true) :
    ¬HandlesSafe fs ino s := by
  intro hsafe
  obtain ⟨ip,hip⟩ := Option.isSome_iff_exists.mp ha
  rw [←fhtovp_eq_answer hv h2] at hip
  have hmem : ⟨13,1⟩∈(s.number ino).handles := by
    rw [hh]
    exact List.mem_singleton_self _
  have hinc := (hsafe _ hmem sampleEnv wild ip (by decide) hip).1
  rw [hi] at hinc
  exact absurd hinc (by decide)

theorem stale_of_lag (hv : fs.ValidIno ino) (h2 : 2 ≤ ino)
    (hne : fs.vgetSlot ino≠fs.updateSlot ino) :
    ∃ s,(history fs).Reach (Sparing ino) s ∧ ¬HandlesSafe fs ino s := by
  let s0 : Volume := ⟨fun _ => unusedNumber,fun _ => freeSlot 0 0 0⟩
  have hread : ∀ s : Volume,s.table (fs.vgetSlot ino)=freeSlot 0 0 0 →
      s.read fs (freeSlot 0 0 0) ino=freeSlot 0 0 0 := by
    intro s hs
    unfold Volume.read
    split
    · exact hs
    · rfl
  have hfresh : (history fs).init s0 :=
    ⟨fun _ => rfl,fun _ => rfl,fun _ => rfl,fun _ _ hlive => absurd rfl hlive.1⟩
  obtain ⟨x,hx,hstale⟩ := Option.map_eq_some_iff.mp twoLives_stale
  obtain ⟨hh,hi,ha⟩ := of_decide_eq_true hstale
  obtain ⟨s,hs,rfl,ht⟩ := lagRun_reach hv hne (.start hfresh) (hread s0 rfl) hx
  exact ⟨s,hs,not_handlesSafe hv h2 hh hi (ht.symm ▸ ha)⟩

theorem stale_of_shared (ht : Mount.Tables fs) (hv : fs.ValidIno ino) (hvj : fs.ValidIno j)
    (h2 : 2 ≤ ino) (hne : j≠ino) (hread : fs.vgetSlot ino=fs.updateSlot ino)
    (hone : fs.updateSlot j=fs.updateSlot ino) :
    ∃ s,(history fs).Reach (Sparing ino) s ∧ ¬HandlesSafe fs ino s := by
  let s0 : Volume := ⟨fun k => if k=ino then unusedNumber else ⟨none,true,0,[]⟩,
      fun l => if l=fs.updateSlot ino then freeSlot 0 0 0 else firstFile⟩
  have hfresh : (history fs).init s0 := by
    refine ⟨?_,?_,?_,?_⟩
    · intro k
      by_cases hk : k=ino <;> simp [s0,hk,unusedNumber]
    · intro k
      by_cases hk : k=ino <;> simp [s0,hk,unusedNumber]
    · intro k
      by_cases hk : k=ino <;> simp [s0,hk,unusedNumber]
    · intro k _ hlive
      by_cases hk : k=ino
      · rw [hk,hread] at hlive
        simp [s0,Slot.Live,freeSlot] at hlive
      · simp [s0,hk]
  have hs0 : Shared fs ino j firstFile s0 (unusedNumber,⟨none,true,0,[]⟩,freeSlot 0 0 0) :=
    ⟨if_pos rfl,if_neg hne,if_pos rfl,fun _ hl => if_neg hl⟩
  obtain ⟨z,hz,hstale⟩ := Option.map_eq_some_iff.mp twoWriters_stale
  obtain ⟨hh,hi,ha⟩ := of_decide_eq_true hstale
  obtain ⟨s,hs,hend⟩ := sharedRun_reach ht hv hvj hne hread hone (.start hfresh) hs0 hz
  refine ⟨s,hs,@not_handlesSafe fs ino hv h2 s firstFile ?_ ?_ ?_⟩
  · rw [hend.first]
    exact hh
  · rw [hend.first]
    exact hi
  · rw [inBuffer_read ht s firstFile hread,hend.first,hend.slot]
    exact ha

theorem ownSlot_of_slotsAgree (h : fs.SlotsAgree) (hv : fs.ValidIno ino) : OwnSlot fs ino := by
  refine ⟨(h.same ino hv).1,?_⟩
  intro j hvj hne hone
  have hbyte : fs.tableByte j=fs.tableByte ino := by
    rw [←h.place j hvj,←h.place ino hv,(h.same j hvj).1,(h.same ino hv).1,hone]
  rcases Nat.lt_or_gt_of_ne hne with hlt | hlt
  · have hapart := h.apart j ino hvj hv hlt
    omega
  · have hapart := h.apart ino j hv hvj hlt
    omega

/-- In every run with fewer than 2^31 creations of the number after its first, a handle leads to its
own incarnation only: exactly when the number has a slot of its own. -/
theorem handle_incarnation_iff (menv : Mount.Env) (es : Mount.Superblock) (fs : Mount.Fs)
    (h : Mount.computeSbData menv es=.ok fs) (hd : fs.oversized=false) (ino : ℕ)
    (hv : fs.ValidIno ino) (h2 : 2 ≤ ino) :
    (∀ s,(history fs).Reach (Sparing ino) s → HandlesSafe fs ino s) ↔ OwnSlot fs ino := by
  have ht := Mount.tables_of_accepted h hd
  constructor
  · intro hsafe
    have hread : fs.vgetSlot ino=fs.updateSlot ino := by
      by_contra hne
      obtain ⟨s,hs,hnot⟩ := stale_of_lag hv h2 hne
      exact hnot (hsafe s hs)
    refine ⟨hread,?_⟩
    intro j hvj hne hone
    obtain ⟨s,hs,hnot⟩ := stale_of_shared ht hv hvj h2 hne hread hone
    exact hnot (hsafe s hs)
  · intro hown s hs
    apply Tracked.handlesSafe ht hown
    apply hs.invariant (I := fun s => Tracked (s.number ino) (s.table (fs.updateSlot ino)))
    · intro s0 h0
      refine ⟨?_,?_,?_,?_⟩
      · intro c hc
        rw [h0.core ino] at hc
        exact nomatch hc
      · intro _ hlive
        exact h0.used ino hv (hown.1 ▸ hlive)
      · intro a ha
        rw [h0.handles ino] at ha
        exact nomatch ha
      · rw [h0.incarnation ino]
        exact Nat.zero_le _
    · intro s0 s1 e hi hok hn
      exact Event.tracked ht hown hi hok hn

theorem handle_incarnation_small :
    ∃ fs,Mount.computeSbData Mount.smallMount Mount.smallDisk=.ok fs ∧
      ∀ s,(history fs).Reach (Sparing 12) s → HandlesSafe fs 12 s := by
  have he : Mount.computeSbData Mount.smallMount Mount.smallDisk=
      .ok { Mount.geometry Mount.smallMount Mount.smallDisk with dircount := 2 } := rfl
  have hv : Mount.Fs.ValidIno
      { Mount.geometry Mount.smallMount Mount.smallDisk with dircount := 2 } 12 :=
    ⟨by decide,by decide⟩
  have hagree := (Mount.tables_of_accepted he rfl).agree_of_whole rfl (.inl (by decide))
  exact ⟨_,he,(handle_incarnation_iff _ _ _ he rfl 12 hv (by decide)).mpr
    (ownSlot_of_slotsAgree hagree hv)⟩

/-- With inodes of 256 bytes the handle of the deleted file leads to the file that has the number
now. -/
theorem handle_of_deleted_file :
    let fs : Mount.Fs := { Mount.geometry Mount.smallMount Mount.largeInodes with dircount := 2 }
    Mount.computeSbData Mount.smallMount Mount.largeInodes=.ok fs ∧
      ((history fs).exec (twoLives.map fun a => ⟨12,a,freeSlot 0 0 0⟩)
        ⟨fun _ => unusedNumber,fun _ => freeSlot 0 0 0⟩).map
          (fun s => ((s.number 12).handles,(s.number 12).incarnation,
            (fhtovp fs s sampleEnv (freeSlot 0 0 0) 12 ⟨13,1⟩).isSome))=
        some ([⟨13,1⟩],2,true) := by
  refine ⟨rfl,?_⟩
  decide +kernel

end Ext2fsX.Reuse
