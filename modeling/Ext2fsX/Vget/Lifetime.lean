import Ext2fsX.Framework.Counts
import Ext2fsX.Vget.Vget
import Mathlib.Data.Fintype.Basic

namespace Ext2fsX.Vget

open Framework
open Function (update update_self update_of_ne)

variable {τ : Type} [DecidableEq τ]

inductive Role where
  | none
  | picked (ip : ℕ)
  | waiting (ip : ℕ)
  | inserting (ip : ℕ)
  | creating (ip : ℕ)
  | made (ip : ℕ)
  | reclaiming (ip : ℕ)
  | removed (ip : ℕ)
  | sleeping (ip : ℕ)
  | freeing (ip : ℕ)

namespace Role

def owns : Role → Option ℕ
  | inserting ip | creating ip | made ip | reclaiming ip | removed ip | sleeping ip
  | freeing ip => some ip
  | _ => Option.none

def refs : Role → Option ℕ
  | waiting ip | sleeping ip => some ip
  | _ => Option.none

def offChain : Role → Option ℕ
  | removed ip | sleeping ip | freeing ip => some ip
  | _ => Option.none

def inode : Role → Option ℕ
  | picked ip | waiting ip => some ip
  | r => r.owns

end Role

def Pc.role : Pc → Role
  | ixlock ip => .picked ip
  | initSleep ip | initWoken ip => .waiting ip
  | insert ip => .inserting ip
  | wakeTest ip | wake ip | dropArg ip | dropCas ip _ | bread ip | vinit ip | vnodeCreate ip
  | relock ip false | irelse ip => .creating ip
  | relock ip true => .made ip
  | reclaim ip | reclaimUpdate ip | reclaimRelock ip | reclaimRemove ip => .reclaiming ip
  | irelLoop ip | irelWake ip | irelRelock ip | reclaimLoop ip => .removed ip
  | irelSleep ip | reclaimSleep ip => .sleeping ip
  | irelFree ip | reclaimFree ip => .freeing ip
  | _ => .none

theorem Pc.role_woken (p : Pc) : p.woken.role=p.role := by
  cases p <;> rfl

theorem Pc.role_touches (p : Pc) (ip : ℕ) (h : p.touches=some ip) : p.role.inode=some ip := by
  cases p with
  | relock jp made => cases made <;> simp_all [touches,role,Role.inode,Role.owns]
  | _ => simp_all [touches,role,Role.inode,Role.owns]

variable (s : State τ)

def NoPick (ip : ℕ) : Prop := ∀ t,s.pc t≠.ixlock ip

def Pc.removes : Pc → Option ℕ
  | irelse ip | reclaimRemove ip => some ip
  | _ => none

/-- An inode is taken off the chain only while no `ext2_hash_get` is between finding it
and locking it. -/
def RemovesUnpicked (x : Act τ) : Prop :=
  ∀ ip∈(s.pc x.thread).removes,NoPick s ip

instance [Fintype τ] (s : State τ) (ip : ℕ) : Decidable (NoPick s ip) :=
  inferInstanceAs (Decidable (∀ _,_))

instance [Fintype τ] (s : State τ) (x : Act τ) : Decidable (RemovesUnpicked s x) :=
  inferInstanceAs (Decidable (∀ _∈_,_))

namespace Inode

def Ended (i : Inode τ) : Prop := i.vnode=false ∨ i.dead=true

/-- The fields that only the owner of an inode changes. -/
def life (i : Inode τ) : Bool × Bool × Bool × Bool := (i.hashed,i.freed,i.vnode,i.dead)

end Inode

namespace Role

/-- What the role of thread `t` says of the record of its inode. -/
def Fits (t : τ) (i : Inode τ) (on : Prop) : Role → Prop
  | none => True
  | picked _ | waiting _ => i.freed=false
  | creating _ | reclaiming _ => i.freed=false ∧ i.Ended
  | made _ => i.freed=false ∧ t∈i.users
  | inserting _ | removed _ | sleeping _ => i.freed=false ∧ i.Ended ∧ ¬on
  | freeing _ => i.freed=false ∧ i.Ended ∧ ¬on ∧ i.refct=0

variable {r : Role} {ip : ℕ} {t : τ} {i i' : Inode τ} {on : Prop}

theorem inode_of_owns (h : r.owns=some ip) : r.inode=some ip := by
  cases r <;> simp_all [owns,inode]

theorem inode_of_refs (h : r.refs=some ip) : r.inode=some ip := by
  cases r <;> simp_all [refs,owns,inode]

theorem owns_of_offChain (h : r.offChain=some ip) : r.owns=some ip := by
  cases r <;> simp_all [offChain,owns]

omit [DecidableEq τ] in
theorem Fits.freed (h : r.Fits t i on) (hr : r.inode=some ip) : i.freed=false := by
  cases r <;> simp_all [Fits,inode,owns]

omit [DecidableEq τ] in
theorem Fits.record (h : r.Fits t i on) (hl : i'.life=i.life)
    (hu : r=.made ip → t∈i.users → t∈i'.users) (hc : r=.freeing ip → i'.refct=i.refct)
    (hr : r.inode=some ip) : r.Fits t i' on := by
  simp only [Inode.life,Prod.mk.injEq] at hl
  cases r <;> simp_all [Fits,Inode.Ended,inode,owns]

end Role

/-- Its record, whether it is on the chain, and what each thread has to do with it. -/
structure Life (ip : ℕ) (i : Inode τ) (on : Prop) (role : τ → Role) : Prop where
  hashed : i.hashed=true ↔ on
  live : on ∨ ¬i.Ended → i.freed=false
  fits : ∀ t,(role t).inode=some ip → (role t).Fits t i on
  owner : ∀ t u,(role t).owns=some ip → (role u).owns=some ip → t=u
  unpicked : ∀ t u,(role t).offChain=some ip → role u≠.picked ip
  counts : Counts i.refct (fun t => (role t).refs=some ip)

namespace Life

variable {ip : ℕ} {i i' : Inode τ} {on on' : Prop} {role : τ → Role}

theorem move (h : Life ip i on role) (t : τ) (r : Role) (hh : i'.hashed=true ↔ on')
    (hl : on' ∨ ¬i'.Ended → i'.freed=false) (ht : r.inode=some ip → r.Fits t i' on')
    (hu : ∀ u,u≠t → (role u).inode=some ip → (role u).Fits u i' on')
    (ho : r.owns=some ip → ∀ u,u≠t → (role u).owns≠some ip)
    (hoff : r.offChain=some ip → ∀ u,u≠t → role u≠.picked ip)
    (hp : r=.picked ip → ∀ u,u≠t → (role u).offChain≠some ip)
    (hc : Counts i'.refct (fun u => (update role t r u).refs=some ip)) :
    Life ip i' on' (update role t r) := by
  refine ⟨hh,hl,?_,?_,?_,hc⟩
  · exact (Function.forall_update_iff role (fun u q => q.inode=some ip → q.Fits u i' on')).mpr
      ⟨ht,hu⟩
  · intro u v hu hv
    by_cases he : u=t <;> by_cases hf : v=t <;>
      simp only [he,hf,update_self,update_of_ne,ne_eq,not_false_eq_true] at hu hv ⊢
    · exact absurd hv (ho hu v hf)
    · exact absurd hu (ho hv u he)
    · exact h.owner u v hu hv
  · intro u v hu
    by_cases he : u=t <;> by_cases hf : v=t <;>
      simp only [he,hf,update_self,update_of_ne,ne_eq,not_false_eq_true] at hu ⊢
    · intro hv
      rw [hv] at hu
      cases hu
    · exact hoff hu v hf
    · exact fun hv => hp hv u he hu
    · exact h.unpicked u v hu

section

variable (h : Life ip i on role)

include h

omit [DecidableEq τ] in
theorem record (hl : i'.life=i.life) (hc : i'.refct=i.refct)
    (hu : ∀ t,role t=.made ip → t∈i.users → t∈i'.users) : Life ip i' on role := by
  refine ⟨?_,?_,?_,h.owner,h.unpicked,hc ▸ h.counts⟩
  · have := h.hashed
    simp_all [Inode.life]
  · have := h.live
    simp_all [Inode.life,Inode.Ended]
  · exact fun t ht => (h.fits t ht).record hl (hu t) (fun _ => hc) ht

omit [DecidableEq τ] in
theorem fit {t : τ} {r : Role} (ht : role t=r) (hr : r.inode=some ip) : r.Fits t i on :=
  ht ▸ h.fits t (ht ▸ hr)

variable (t : τ) (r : Role)

theorem counts_same (hr : r.refs=some ip ↔ (role t).refs=some ip) :
    Counts i.refct (fun u => (update role t r u).refs=some ip) := by
  refine h.counts.congr (fun u => ?_)
  by_cases hu : u=t
  · subst hu
    rw [update_self]
    exact hr
  · rw [update_of_ne hu]

theorem counts_enter (hr : r.refs=some ip) (ht : (role t).refs≠some ip) :
    Counts (i.refct+1) (fun u => (update role t r u).refs=some ip) := by
  refine h.counts.enter ht (fun u => ?_)
  by_cases hu : u=t
  · subst hu
    simp [hr]
  · simp [hu]

theorem counts_leave (hr : r.refs≠some ip) (ht : (role t).refs=some ip) :
    Counts (i.refct-1) (fun u => (update role t r u).refs=some ip) := by
  refine h.counts.leave ht (fun u => ?_)
  by_cases hu : u=t
  · subst hu
    simp [hr]
  · simp [hu]

theorem elsewhere (hon : on' ↔ on) (ht : (role t).inode≠some ip)
    (hr : r.inode≠some ip) : Life ip i on' (update role t r) := by
  obtain rfl := propext hon
  refine h.move t r h.hashed h.live (fun he => absurd he hr) (fun u _ => h.fits u) ?_ ?_ ?_ ?_
  · exact fun he => absurd (Role.inode_of_owns he) hr
  · exact fun he => absurd (Role.inode_of_owns (Role.owns_of_offChain he)) hr
  · exact fun he => absurd (he ▸ rfl) hr
  · exact h.counts_same t r ⟨fun he => absurd (Role.inode_of_refs he) hr,
      fun he => absurd (Role.inode_of_refs he) ht⟩

theorem visit (hr : r.owns=none) (hl : i'.life=i.life) (hu : i'.users=i.users)
    (hfree : ∀ u,role u=.freeing ip → i'.refct=i.refct) (hin : r.inode=some ip → i.freed=false)
    (hp : r=.picked ip → on)
    (hc : Counts i'.refct (fun u => (update role t r u).refs=some ip)) :
    Life ip i' on (update role t r) := by
  have hown : ¬r.owns=some ip := by simp [hr]
  have hrec (u : τ) (ht : (role u).inode=some ip) : (role u).Fits u i' on :=
    (h.fits u ht).record hl (fun _ hm => hu ▸ hm) (hfree u) ht
  have hh := h.hashed
  have hlive := h.live
  refine h.move t r ?_ ?_ ?_ (fun u _ => hrec u) (fun ho => absurd ho hown) ?_ ?_ hc
  · simp_all [Inode.life]
  · simp_all [Inode.life,Inode.Ended]
  · intro ht
    have := hin ht
    cases r <;> simp_all [Role.Fits,Role.owns,Role.inode,Inode.life]
  · exact fun ho => absurd (Role.owns_of_offChain ho) hown
  · intro he u _ ho
    have hf := h.fits u (Role.inode_of_owns (Role.owns_of_offChain ho))
    have := hp he
    cases hq : role u <;> simp_all [Role.Fits,Role.offChain]

theorem advance (hown : (role t).owns=some ip) (hh : i'.hashed=true ↔ on')
    (hf : i'.freed=false) (ht : r.inode=some ip → r.Fits t i' on') (hr : r≠.picked ip)
    (hoff : r.offChain=some ip → ∀ u,role u≠.picked ip)
    (hc : Counts i'.refct (fun u => (update role t r u).refs=some ip)) :
    Life ip i' on' (update role t r) := by
  have alone (u : τ) (hu : u≠t) (ho : (role u).owns=some ip) : False := hu (h.owner u t ho hown)
  refine h.move t r hh (fun _ => hf) ht ?_ (fun _ u hu => alone u hu) (fun ho u _ => hoff ho u)
    (fun he => absurd he hr) hc
  intro u hu hin
  have := alone u hu
  cases hq : role u <;> simp_all [Role.Fits,Role.owns,Role.inode]

theorem drop (ht : (role t).refs≠some ip) : Life ip i on (update role t .none) :=
  h.visit t .none rfl rfl rfl (fun _ _ => rfl) nofun nofun
    (h.counts_same t .none ⟨nofun,fun hr => absurd hr ht⟩)

theorem pick (ho : on) (ht : (role t).refs≠some ip) : Life ip i on (update role t (.picked ip)) :=
  h.visit t _ rfl rfl rfl (fun _ _ => rfl) (fun _ => h.live (.inl ho)) (fun _ => ho)
    (h.counts_same t _ ⟨nofun,fun hr => absurd hr ht⟩)

theorem wait (ht : role t=.picked ip) :
    Life ip { i with refct := i.refct+1 } on (update role t (.waiting ip)) := by
  refine h.visit t _ rfl rfl rfl ?_ ?_ nofun (h.counts_enter t _ rfl (by rw [ht]; nofun))
  · exact fun u hu => absurd ht (h.unpicked u t (by rw [hu]; rfl))
  · exact fun _ => h.fit ht rfl

theorem unwait (ht : role t=.waiting ip) :
    Life ip { i with refct := i.refct-1 } on (update role t .none) := by
  refine h.visit t _ rfl rfl rfl ?_ nofun nofun (h.counts_leave t _ nofun (by rw [ht]; rfl))
  intro u hu
  obtain ⟨-,-,-,hz⟩ := h.fit hu rfl
  simp [hz]

theorem sleep (ht : role t=.removed ip) :
    Life ip { i with refct := i.refct+1 } on (update role t (.sleeping ip)) := by
  have hfit := h.fit ht rfl
  exact h.advance t _ (by rw [ht]; rfl) h.hashed hfit.1 (fun _ => hfit) nofun
    (fun _ u => h.unpicked t u (by rw [ht]; rfl)) (h.counts_enter t _ rfl (by rw [ht]; nofun))

theorem unsleep (ht : role t=.sleeping ip) :
    Life ip { i with refct := i.refct-1 } on (update role t (.removed ip)) := by
  have hfit := h.fit ht rfl
  exact h.advance t _ (by rw [ht]; rfl) h.hashed hfit.1 (fun _ => hfit) nofun
    (fun _ u => h.unpicked t u (by rw [ht]; rfl)) (h.counts_leave t _ nofun (by rw [ht]; rfl))

theorem startFree (ht : role t=.removed ip) (hz : i.refct=0) :
    Life ip i on (update role t (.freeing ip)) := by
  obtain ⟨hf,hend,hoff⟩ := h.fit ht rfl
  exact h.advance t _ (by rw [ht]; rfl) h.hashed hf (fun _ => ⟨hf,hend,hoff,hz⟩) nofun
    (fun _ u => h.unpicked t u (by rw [ht]; rfl))
    (h.counts_same t _ (by rw [ht]; exact ⟨nofun,nofun⟩))

theorem make (ht : role t=.creating ip) :
    Life ip { i with vnode := true, users := [t] } on (update role t (.made ip)) := by
  have hf := (h.fit ht rfl).1
  exact h.advance t _ (by rw [ht]; rfl) h.hashed hf (fun _ => ⟨hf,List.mem_singleton_self t⟩) nofun
    nofun (h.counts_same t _ (by rw [ht]; exact ⟨nofun,nofun⟩))

theorem insert (ht : role t=.inserting ip) :
    Life ip { i with hashed := true } True (update role t (.creating ip)) := by
  obtain ⟨hf,hend,-⟩ := h.fit ht rfl
  exact h.advance t _ (by rw [ht]; rfl) (by simp) hf (fun _ => ⟨hf,hend⟩) nofun nofun
    (h.counts_same t _ (by rw [ht]; exact ⟨nofun,nofun⟩))

theorem remove (ht : role t=.creating ip ∨ role t=.reclaiming ip) (hp : ∀ u,role u≠.picked ip) :
    Life ip { i with hashed := false } False (update role t (.removed ip)) := by
  have hfit : i.freed=false ∧ i.Ended := ht.elim (h.fit · rfl) (h.fit · rfl)
  have hown : (role t).owns=some ip := by rcases ht with ht | ht <;> rw [ht] <;> rfl
  have hrefs : (role t).refs≠some ip := by rcases ht with ht | ht <;> rw [ht] <;> nofun
  exact h.advance t _ hown (by simp) hfit.1 (fun _ => ⟨hfit.1,hfit.2,id⟩) nofun (fun _ => hp)
    (h.counts_same t _ ⟨nofun,fun hr => absurd hr hrefs⟩)

theorem free (ht : role t=.freeing ip) :
    Life ip { i with freed := true } on (update role t .none) := by
  obtain ⟨-,hend,hoff,hz⟩ := h.fit ht rfl
  have hc := h.counts
  rw [hz] at hc
  refine h.move t _ h.hashed ?_ nofun ?_ nofun nofun nofun
    (h.counts_same t _ (by rw [ht]; exact ⟨nofun,nofun⟩))
  · exact fun hl => (hl.elim hoff (absurd hend)).elim
  -- nobody else is left: the count is 0 and the inode is off the chain
  intro u hu hin
  have h1 : ¬(role u).refs=some ip := fun hr => absurd (hc.pos (t := u) hr) (lt_irrefl 0)
  have h2 := h.unpicked t u (by rw [ht]; rfl)
  have h3 : ¬(role u).owns=some ip := fun ho => hu (h.owner u t ho (by rw [ht]; rfl))
  cases hq : role u <;> simp_all [Role.inode,Role.owns,Role.refs]

theorem reclaim (ht : role t=.none) (hv : i.vnode=true) (hu : i.users=[]) (hd : i.dead=false) :
    Life ip { i with dead := true } on (update role t (.reclaiming ip)) := by
  have hend : ¬i.Ended := by simp [Inode.Ended,hv,hd]
  have hlive := h.live (.inr hend)
  have hown (u : τ) : (role u).owns≠some ip := by
    intro ho
    have hf := h.fits u (Role.inode_of_owns ho)
    cases hq : role u <;> simp_all [Role.owns,Role.Fits]
  refine h.move t _ h.hashed (fun _ => hlive) (fun _ => ⟨hlive,.inr rfl⟩) ?_ (fun _ u _ => hown u)
    nofun nofun (h.counts_same t _ (by rw [ht]; exact ⟨nofun,nofun⟩))
  intro u _ hin
  have ho := hown u
  cases hq : role u <;> simp_all [Role.inode,Role.owns,Role.Fits]

end

theorem fresh (t : τ) (hr : ∀ u,u≠t → (role u).inode≠some ip) (hl : i.life=(false,false,false,false))
    (hc : i.refct=0) : Life ip i False (update role t (.inserting ip)) := by
  simp only [Inode.life,Prod.mk.injEq] at hl
  obtain ⟨hh,hf,hv,-⟩ := hl
  have only (u : τ) (hu : (update role t (.inserting ip) u).inode=some ip) :
      u=t ∧ update role t (.inserting ip) u=.inserting ip := by
    by_cases he : u=t
    · subst he
      exact ⟨rfl,update_self ..⟩
    · rw [update_of_ne he] at hu
      exact absurd hu (hr u he)
  refine ⟨by simp [hh],fun _ => hf,?_,?_,?_,hc ▸ Counts.none ?_⟩
  · intro u hu
    rw [(only u hu).2]
    exact ⟨hf,.inl hv,id⟩
  · intro u v hu hv
    rw [(only u (Role.inode_of_owns hu)).1,(only v (Role.inode_of_owns hv)).1]
  · intro u v hu
    rw [(only u (Role.inode_of_owns (Role.owns_of_offChain hu))).2] at hu
    cases hu
  · intro u hu
    rw [(only u (Role.inode_of_refs hu)).2] at hu
    cases hu

end Life

def State.role (t : τ) : Role := (s.pc t).role

/-- The invariant of the runs in which nobody loses an inode it has just found. -/
structure Lifetime : Prop where
  fault : s.fault=false
  nodup : s.chain.Nodup
  below : ∀ ip∈s.chain,ip < s.fresh
  known : ∀ t ip,(s.role t).inode=some ip → ip < s.fresh
  life : ∀ ip < s.fresh,Life ip (s.inode ip) (ip∈s.chain) s.role

theorem State.role_goto (t : τ) (p : Pc) : (s.goto t p).role=update s.role t p.role := by
  funext u
  by_cases hu : u=t
  · subst hu
    simp [State.role]
  · simp [State.role,hu]

omit [DecidableEq τ] in
theorem State.role_wakeup (c : Chan) : (s.wakeup c).role=s.role := by
  funext u
  rcases s.wakeup_pc u c with he | he
  · simp only [State.role,he]
  · simp only [State.role,he,Pc.role_woken]

namespace Lifetime

variable {s s' : State τ}

section

variable (h : Lifetime s)

include h

omit [DecidableEq τ] in
theorem same (hf : s'.fault=false) (hc : s'.chain=s.chain) (hn : s'.fresh=s.fresh)
    (hi : s'.inode=s.inode) (hr : s'.role=s.role) : Lifetime s' := by
  refine ⟨hf,hc ▸ h.nodup,?_,?_,?_⟩
  · rw [hc,hn]
    exact h.below
  · rw [hr,hn]
    exact h.known
  · rw [hn,hi,hc,hr]
    exact h.life

variable (t : τ)

variable (ip : ℕ)

theorem change (r : Role) (hlt : ip < s.fresh) (hf : s'.fault=false)
    (hd : s'.chain.Nodup) (hc : ∀ jp,jp≠ip → (jp∈s'.chain ↔ jp∈s.chain)) (hn : s'.fresh=s.fresh)
    (hi : ∀ jp,jp≠ip → s'.inode jp=s.inode jp) (hr : s'.role=update s.role t r)
    (hold : (s.role t).inode=none ∨ (s.role t).inode=some ip)
    (hnew : r.inode=none ∨ r.inode=some ip)
    (hl : Life ip (s'.inode ip) (ip∈s'.chain) (update s.role t r)) : Lifetime s' := by
  have only {x : Option ℕ} (hx : x=none ∨ x=some ip) (jp : ℕ) (hj : x=some jp) : jp=ip := by
    simp_all
  refine ⟨hf,hd,?_,?_,?_⟩
  · intro jp hjp
    rw [hn]
    by_cases he : jp=ip
    · exact he ▸ hlt
    · exact h.below jp ((hc jp he).mp hjp)
  · rw [hr,hn]
    exact (Function.forall_update_iff s.role (fun _ r => ∀ jp,r.inode=some jp → jp < s.fresh)).mpr
      ⟨fun jp hj => only hnew jp hj ▸ hlt,fun u _ => h.known u⟩
  · intro jp hjp
    rw [hr]
    by_cases he : jp=ip
    · exact he ▸ hl
    · rw [hi jp he]
      exact (h.life jp (hn ▸ hjp)).elsewhere t r (hc jp he) (fun ho => he (only hold jp ho))
        (fun ho => he (only hnew jp ho))

variable (i : Inode τ)

variable (p : Pc)

theorem set (hlt : ip < s.fresh) (hold : (s.role t).inode=none ∨ (s.role t).inode=some ip)
    (hnew : p.role.inode=none ∨ p.role.inode=some ip)
    (hl : Life ip i (ip∈s.chain) (update s.role t p.role)) :
    Lifetime ((s.setInode ip i).goto t p) := by
  refine h.change t ip p.role hlt h.fault h.nodup (fun jp _ => Iff.rfl) rfl ?_ ?_ hold hnew ?_
  · intro jp hj
    simp [hj]
  · exact State.role_goto _ _ _
  · simpa using hl

theorem stay (hp : p.role=s.role t) : Lifetime (s.goto t p) := by
  refine h.same h.fault rfl rfl rfl ?_
  rw [State.role_goto,hp,Function.update_eq_self]

theorem drop (hp : p.role=.none) (ht : (s.role t).refs=none) : Lifetime (s.goto t p) := by
  refine ⟨h.fault,h.nodup,h.below,?_,?_⟩
  · rw [State.role_goto,hp]
    exact (Function.forall_update_iff s.role (fun _ r => ∀ jp,r.inode=some jp → jp < s.fresh)).mpr
      ⟨nofun,fun u _ => h.known u⟩
  · intro jp hjp
    rw [State.role_goto,hp]
    exact (h.life jp hjp).drop t (by rw [ht]; nofun)

omit [DecidableEq τ] in
theorem wakeup (c : Chan) : Lifetime (s.wakeup c) :=
  h.same h.fault rfl rfl rfl (State.role_wakeup s c)

omit [DecidableEq τ] in
theorem compareAndSwap (v w : ℤ) : Lifetime (s.compareAndSwap v w) :=
  h.same (by simpa using h.fault) (by simp) (by simp) (by simp) (by funext u; simp [State.role])

omit [DecidableEq τ] in
theorem setInode (hl : i.life=(s.inode ip).life) (hc : i.refct=(s.inode ip).refct)
    (hu : ∀ t,s.role t=.made ip → t∈(s.inode ip).users → t∈i.users) :
    Lifetime (s.setInode ip i) := by
  refine ⟨h.fault,h.nodup,h.below,h.known,?_⟩
  intro jp hjp
  by_cases he : jp=ip
  · subst he
    rw [State.setInode_self]
    exact (h.life jp hjp).record hl hc hu
  · rw [State.setInode_of_ne _ _ _ _ he]
    exact h.life jp hjp

omit [DecidableEq τ] in
theorem touches (ht : (s.pc t).touches=some ip) : (s.inode ip).freed=false := by
  have hin := (s.pc t).role_touches ip ht
  exact ((h.life ip (h.known t ip hin)).fits t hin).freed hin

theorem malloc (ht : s.role t=.none) (hl : i.life=(false,false,false,false)) (hc : i.refct=0) :
    Lifetime ({ s.setInode s.fresh i with fresh := s.fresh+1 }.goto t (.insert s.fresh)) := by
  have hrole : State.role ({ s.setInode s.fresh i with fresh := s.fresh+1 }.goto t
      (.insert s.fresh))=update s.role t (.inserting s.fresh) :=
    State.role_goto _ _ _
  have hoff : s.fresh∉s.chain := fun hm => absurd (h.below _ hm) (lt_irrefl _)
  refine ⟨h.fault,h.nodup,fun ip hip => Nat.lt_succ_of_lt (h.below ip hip),?_,?_⟩
  · rw [hrole]
    refine (Function.forall_update_iff s.role (fun _ r => ∀ ip,r.inode=some ip → ip < _)).mpr ⟨?_,?_⟩
    · rintro ip ⟨⟩
      exact Nat.lt_succ_self _
    · exact fun u _ ip hu => Nat.lt_succ_of_lt (h.known u ip hu)
  intro ip hip
  rw [hrole]
  by_cases he : ip=s.fresh
  · subst he
    have hnew : Life s.fresh i False (update s.role t (.inserting s.fresh)) :=
      Life.fresh t (fun u _ ho => absurd (h.known u _ ho) (lt_irrefl _)) hl hc
    simpa [hoff] using hnew
  · have hlt : ip < s.fresh := lt_of_le_of_ne (Nat.lt_succ_iff.mp hip) he
    have hold := (h.life ip hlt).elsewhere t (.inserting s.fresh) Iff.rfl (by rw [ht]; nofun)
      (fun ho => he (Option.some.inj ho).symm)
    simpa [he] using hold

theorem insert (hr : s.role t=.inserting ip) :
    Lifetime ({ s.setInode ip { s.inode ip with hashed := true } with
      chain := ip::s.chain }.goto t (.wakeTest ip)) := by
  have hlt := h.known t ip (by rw [hr]; rfl)
  have hoff : ip∉s.chain := ((h.life ip hlt).fit hr rfl).2.2
  refine h.change t ip (.creating ip) hlt h.fault ?_ ?_ rfl ?_ (State.role_goto _ _ _)
    (.inr (by rw [hr]; rfl)) (.inr rfl) ?_
  · exact List.nodup_cons.mpr ⟨hoff,h.nodup⟩
  · intro jp hj
    simp [hj]
  · intro jp hj
    simp [hj]
  · simpa using (h.life ip hlt).insert t hr

theorem hashRemove (ht : s.role t=.creating ip ∨ s.role t=.reclaiming ip) (hp : p.role=.removed ip)
    (hno : NoPick s ip) : Lifetime ((s.hashRemove ip).goto t p) := by
  have hin : (s.role t).inode=some ip := by rcases ht with ht | ht <;> rw [ht] <;> rfl
  have hlt := h.known t ip hin
  have hpick (u : τ) : s.role u≠.picked ip := by
    intro hu
    cases hc : s.pc u <;> simp_all [State.role,Pc.role]
    · exact hno u hc
    · split at hu <;> simp_all
  have hlife := (h.life ip hlt).remove t ht hpick
  -- an inode that is not hashed is not on the chain, so nothing is skipped
  have hremove : s.hashRemove ip={ s.setInode ip { s.inode ip with hashed := false } with
      chain := s.chain.erase ip } := by
    unfold State.hashRemove
    split
    · rfl
    rename_i hh
    have hoff : ip∉s.chain := fun hm => hh ((h.life ip hlt).hashed.mpr hm)
    have he : { s.inode ip with hashed := false }=s.inode ip := by
      cases hi : s.inode ip
      simp_all
    rw [he,List.erase_of_not_mem hoff,State.setInode,Function.update_eq_self]
  rw [hremove]
  refine h.change t ip p.role hlt h.fault (h.nodup.erase ip) ?_ rfl ?_ (State.role_goto _ _ _)
    (.inr hin) (.inr (by rw [hp]; rfl)) ?_
  · intro jp hj
    simp [h.nodup.mem_erase_iff,hj]
  · intro jp hj
    simp [hj]
  · rw [hp]
    simpa [h.nodup.mem_erase_iff] using hlife

theorem pick (ht : s.role t=.none) (hm : ip∈s.chain) : Lifetime (s.goto t (.ixlock ip)) := by
  have hlt := h.below ip hm
  refine h.change t ip (.picked ip) hlt h.fault h.nodup (fun _ _ => Iff.rfl) rfl (fun _ _ => rfl)
    (State.role_goto _ _ _) (.inl (by rw [ht]; rfl)) (.inr rfl) ?_
  exact (h.life ip hlt).pick t hm (by rw [ht]; nofun)

theorem act (r : Role)
    (hr : s.role t=r) (hin : r.inode=some ip) (hnew : p.role.inode=none ∨ p.role.inode=some ip)
    (hl : Life ip (s.inode ip) (ip∈s.chain) s.role →
      Life ip i (ip∈s.chain) (update s.role t p.role)) :
    Lifetime ((s.setInode ip i).goto t p) := by
  subst hr
  have hlt := h.known t ip hin
  exact h.set t ip i p hlt (.inr hin) hnew (hl (h.life ip hlt))

/-- The section of `ext2_hash_get` under the inode lock, entered from the chain. -/
theorem hashGetPicked (ht : s.role t=.picked ip) :
    Lifetime (s.hashGetLocked t ip (s.inode ip)) := by
  have hsame : Lifetime (s.setInode ip (s.inode ip)) := h.setInode ip _ rfl rfl (fun _ _ hm => hm)
  have hno : (s.role t).refs=none := by
    rw [ht]
    rfl
  unfold State.hashGetLocked
  split
  · refine h.act t ip _ _ _ ht rfl ?_ (fun hl => ?_)
    · exact .inr rfl
    · exact (hl.wait t ht).record rfl rfl (fun _ _ hm => hm)
  · split <;> exact hsame.drop t _ rfl hno

theorem hashGetWoken (ht : s.role t=.waiting ip) :
    Lifetime (s.hashGetLocked t ip { s.inode ip with refct := (s.inode ip).refct-1 }) := by
  unfold State.hashGetLocked
  split
  · refine h.act t ip _ _ _ ht rfl ?_ (fun hl => ?_)
    · exact .inr rfl
    · have hpos := hl.counts.pos (t := t) (by rw [ht]; rfl)
      have hup : update s.role t (Pc.initSleep ip).role=s.role := by
        rw [show (Pc.initSleep ip).role=s.role t from ht.symm,Function.update_eq_self]
      rw [hup]
      exact hl.record rfl (Nat.sub_add_cancel hpos) (fun _ _ hm => hm)
  · split <;> exact h.act t ip _ _ _ ht rfl (.inl rfl) (fun hl => hl.unwait t ht)

theorem step {t : τ} {p : Pc} (hp : s.pc t=p) (hw : ∀ ip∈p.removes,NoPick s ip)
    (hs : s.Step t p s') : Lifetime s' := by
  have hr : s.role t=p.role := congrArg Pc.role hp
  have stay (q : Pc) (hq : q.role=p.role) : Lifetime (s.goto t q) := h.stay t q (hq.trans hr.symm)
  have set (ip : ℕ) (i : Inode τ) (q : Pc) (hl : i.life=(s.inode ip).life)
      (hc : i.refct=(s.inode ip).refct) (hu : ∀ u∈(s.inode ip).users,u∈i.users)
      (hq : q.role=p.role) : Lifetime ((s.setInode ip i).goto t q) :=
    (h.setInode ip i hl hc (fun u _ => hu u)).stay t q (hq.trans hr.symm)
  have act (ip : ℕ) (i : Inode τ) (q : Pc) := h.act t ip i q p.role hr
  have swap (v w : ℤ) (q : Pc) (hq : q.role=p.role) : Lifetime ((s.compareAndSwap v w).goto t q) :=
    (h.compareAndSwap v w).stay t q (by simpa [State.role,hp] using hq)
  have wakeup (c : Chan) (q : Pc) (hq : q.role=p.role) : Lifetime ((s.wakeup c).goto t q) :=
    (h.wakeup c).stay t q (by rw [State.role_wakeup,hr,hq])
  cases hs with
  | move hm => exact stay _ (by cases hm <;> rfl)
  | pick hc => exact h.pick t _ hr (by simp [hc])
  | ixlock => exact h.hashGetPicked t _ hr
  | initWoken => exact h.hashGetWoken t _ hr
  | getwithvid => exact set _ _ _ rfl rfl (fun _ => List.mem_cons_of_mem t) rfl
  | markCas | dropCas => exact swap _ _ _ rfl
  | lockMsleep => exact stay _ rfl
  | takeCas => exact swap _ _ _ (by split <;> rfl)
  | malloc => exact h.malloc t _ hr rfl rfl
  | insert => exact h.insert t _ hr
  | wakeTest => exact stay _ (by split <;> rfl)
  | wake | irelWake => exact wakeup _ _ rfl
  | vnodeCreate => exact act _ _ _ rfl (.inr rfl) (fun hl => hl.make t hr)
  | @finish ip _ =>
    have hset : Lifetime (s.setInode ip { s.inode ip with
        init := false
        initWait := false }) := h.setInode ip _ rfl rfl (fun _ _ hm => hm)
    have hno : (s.role t).refs=none := by rw [hr]; rfl
    have hend := hset.drop t (.done (some ip)) rfl hno
    unfold State.vgetFinish
    dsimp only
    split
    · exact hend.wakeup _
    · exact hend
  | irelse => exact h.hashRemove t _ _ (.inl hr) rfl (hw _ rfl)
  | irelLoop | reclaimLoop =>
    refine act _ _ _ rfl (.inr rfl) (fun hl => ?_)
    exact (hl.sleep t hr).record rfl rfl (fun _ _ hm => hm)
  | irelLast hc | reclaimLast hc =>
    refine act _ _ _ rfl (.inr rfl) (fun hl => ?_)
    exact (hl.startFree t hr (by omega)).record rfl rfl (fun _ _ hm => hm)
  | irelSleep | reclaimSleep =>
    refine act _ _ _ rfl (.inr rfl) (fun hl => ?_)
    exact (hl.unsleep t hr).record rfl rfl (fun _ _ hm => hm)
  | irelFree | reclaimFree => exact act _ _ _ rfl (.inl rfl) (fun hl => hl.free t hr)
  | reclaimRemove => exact h.hashRemove t _ _ (.inr hr) rfl (hw _ rfl)
  | _ => exact set _ _ _ rfl rfl (fun _ hm => hm) rfl

theorem next (x : Act τ) (hw : RemovesUnpicked s x) (hn : State.next x s=some s') : Lifetime s' := by
  cases State.next_taken hn with
  | call hp => exact h.stay _ _ (by rw [State.role,hp]; rfl)
  | putNone hp => exact h.stay _ _ (by rw [State.role,hp]; rfl)
  | @put t ip hp =>
    have hr : s.role t=.none := by rw [State.role,hp]; rfl
    have hne (u : τ) (hu : s.role u=.made ip) : u≠t := by
      rintro rfl
      rw [hr] at hu
      cases hu
    have base : Lifetime (s.setInode ip { s.inode ip with
        users := (s.inode ip).users.erase t }) :=
      h.setInode ip _ rfl rfl (fun u hu hm => (List.mem_erase_of_ne (hne u hu)).mpr hm)
    exact base.stay t _ hr.symm
  | @reclaim t ip hp hlt hv hu hd =>
    have hr : s.role t=.none := by rw [State.role,hp]; rfl
    exact h.set t ip _ _ hlt (.inl (by rw [hr]; rfl)) (.inr rfl)
      ((h.life ip hlt).reclaim t hr hv hu hd)
  | @fault t ip e ht hf =>
    rw [h.touches t ip ht] at hf
    cases hf
  | step hs => exact h.step rfl hw hs

end

end Lifetime

theorem vget_init_lifetime (h : (vgetMachine τ).init s) : Lifetime s := by
  obtain ⟨-,hchain,hfresh,hpc,hfault⟩ := h
  refine ⟨hfault,by simp [hchain],by simp [hchain],?_,by simp [hfresh]⟩
  intro t ip ht
  rw [State.role,hpc t] at ht
  cases ht

/-- In such runs no thread touches an inode that has been freed. -/
theorem vget_no_fault_of_removesUnpicked (s : State τ)
    (h : (vgetMachine τ).Reach RemovesUnpicked s) :
    s.fault=false ∧ ∀ t ip,(s.pc t).touches=some ip → (s.inode ip).freed=false := by
  have hl : Lifetime s := by
    refine Machine.Reach.invariant vget_init_lifetime ?_ h
    intro s s' x hs hok hn
    exact hs.next x hok hn
  exact ⟨hl.fault,hl.touches⟩

def lockThenReclaim : List (Act (Fin 3)) :=
  .call 0::List.replicate 13 (.run 0 .ok)++[.put 0,.call 1,.run 1 .ok,.run 1 .ok,.reclaim 2 0]++
    List.replicate 4 (.run 2 .ok)++[.run 1 .noent,.run 1 .ok]

theorem vget_no_fault_of_removesUnpicked_three :
    ∃ s,(vgetMachine (Fin 3)).exec lockThenReclaim (vgetStart (Fin 3))=some s ∧
      (s.inode 0).freed=true ∧ s.pc 1=.lockTest ∧ s.fault=false := by
  have he : (vgetMachine (Fin 3)).exec lockThenReclaim (vgetStart (Fin 3))=some _ := rfl
  have hm : (vgetMachine (Fin 3)).Meets RemovesUnpicked lockThenReclaim (vgetStart (Fin 3)) := by
    decide
  have hr := (Machine.Reach.start (vgetStart_init (Fin 3))).exec hm he
  exact ⟨_,he,by decide,by decide,(vget_no_fault_of_removesUnpicked _ hr).1⟩

def findThenReclaim : List (Act (Fin 3)) :=
  .call 0::List.replicate 13 (.run 0 .ok)++[.put 0,.call 1,.run 1 .ok,.reclaim 2 0]++
    List.replicate 4 (.run 2 .ok)++[.run 1 .ok]

theorem vget_fault :
    ¬∀ s : State (Fin 3),(vgetMachine (Fin 3)).Reach Machine.anyStep s → s.fault=false := by
  intro h
  have he : (vgetMachine (Fin 3)).exec findThenReclaim (vgetStart (Fin 3))=some _ := rfl
  have hm : (vgetMachine (Fin 3)).Meets Machine.anyStep findThenReclaim (vgetStart (Fin 3)) := by
    decide
  have hf := h _ ((Machine.Reach.start (vgetStart_init (Fin 3))).exec hm he)
  exact absurd hf (by decide)

end Ext2fsX.Vget
