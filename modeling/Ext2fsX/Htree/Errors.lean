import Ext2fsX.Htree.Complete

namespace Ext2fsX.Htree.Errors

open Directory

/-- `ERR_BAD_DX_DIR`. -/
@[simp] def errBadDxDir : ℤ := -75000

@[simp] def enoent : ℤ := 2

@[simp] def eio : ℤ := 5

@[simp] def ejustreturn : ℤ := -2

/-- What the index code is called with. -/
structure Query where
  cfg : Config
  seed : HashBuf
  dentry : Dentry

/-- A run of the index code: the directory as its buffers have it, and the reads that failed, with
`EIO`. `buf_bread` gives the buffer all the same, with what it holds. `linear` is what the linear
code returns where it is called instead. -/
structure Search where
  seen : IndexedDir
  failed : ℕ → Bool
  linear : ℤ
  linear_lt : linear.natAbs<75000

variable (q : Query)

/-- The blocks that the loop of `ext3_dx_find_entry` reads. -/
def leafReads (t : IndexedDir) (hash : ℕ) : ℕ → Frames → List ℕ
  | 0,_ => []
  | fuel+1,f =>
    t.leafBlock f::
      match findInLeaf q.cfg (t.leaf (t.leafBlock f)) q.dentry.name.bytes q.cfg.blocksize 0,
        nextBlock t hash f with
      | .miss,some f' => (if f'.node=f.node then [] else f'.node.toList)++leafReads t hash fuel f'
      | _,_ => []

namespace Search

variable (s : Search)

def hash : ℕ := (hashing q.seed s.seen.version).hash q.dentry.name.bytes

def frames : Option Frames := probe s.seen (s.hash q)

/-- `ext3_dx_find_entry` works on the buffers. -/
def found : DxFound := dxFindEntry q.cfg q.seed s.seen q.dentry.name.bytes

/-- The blocks that it reads. -/
def reads : List ℕ :=
  0::(s.frames q).elim [] fun f => f.node.toList++leafReads q s.seen (s.hash q) s.seen.blocks f

/-- The name is that of a mangled entry, in a leaf whose read failed. -/
def Mangled : Prop := s.found q=.eio ∧ (s.reads q).getLast?.any s.failed=true

instance decidableMangled : Decidable (s.Mangled q) := inferInstanceAs (Decidable (_ ∧ _))

/-- `*err` without an entry. If one is mangled, it is what the read of its leaf has left there. -/
def findErr : ℤ :=
  match s.found q with
  | .at _ _ => 0
  | .badDxDir => errBadDxDir
  | .enoent => -enoent
  | .eio => if s.Mangled q then -eio else 0

/-- `ext2_lookupi`: whatever the error is, but for one, there is no such entry. -/
def lookupi (creating : Bool) : ℤ :=
  match s.found q with
  | .at _ _ => 0
  | .badDxDir => s.linear
  | .enoent | .eio => if creating then ejustreturn else enoent

/-- A failed read that the search comes to, unless it is left to the linear code. -/
def Fails : Prop := s.found q≠.badDxDir ∧ (s.reads q).any s.failed=true

/-- `ext3_dx_add_entry` on the buffers, as long as blocks can be allocated. -/
def added : Except DxError IndexedDir := dxAddEntry q.cfg q.seed s.seen q.dentry (fun _ => 0)

def AddFails : Prop :=
  (0::(s.frames q).elim [] fun f => f.node.toList++[s.seen.leafBlock f]).any s.failed=true

/-- The leaf has no room, and nothing else keeps it from being split. -/
def Splits : Prop := (s.added q).toOption.isSome=true ∧ ∃ f∈s.frames q,
  findRoom q.cfg (s.seen.leaf (s.seen.leafBlock f)) q.dentry q.cfg.blocksize 0=.enospc

instance decidableSplits : Decidable (s.Splits q) := inferInstanceAs (Decidable (_ ∧ _))

end Search

/-- What is done after the lookup. `append` is the error of the first `ext3_append` that fails, or
0. -/
inductive Job where
  | remove
  | rewrite
  | enter (append : Fin 75000)
  deriving DecidableEq

namespace Job

/-- The negative error of the index code. -/
def err (s : Search) : Job → ℤ
  | remove | rewrite => s.findErr q
  | enter append =>
    match s.added q with
    | .ok _ => if s.Splits q then -append.val else 0
    | .error .badDxDir => errBadDxDir
    | .error .eio => -eio
    | .error .eexist => -17
    | .error .enospc => -28

/-- The root is of no known kind. -/
def Bad (s : Search) : Job → Prop
  | remove | rewrite => s.found q=.badDxDir
  | enter _ => s.added q=.error .badDxDir

/-- A mangled entry, or an allocation, gives `EIO`. -/
def GivesEio (s : Search) : Job → Prop
  | remove | rewrite => s.Mangled q
  | enter append => s.added q=.error .eio ∨ s.Splits q ∧ append=5

def ReadFails (s : Search) : Job → Prop
  | remove | rewrite => s.Fails q
  | enter _ => s.AddFails q

def appendErr (s : Search) : Job → ℤ
  | remove | rewrite => 0
  | enter append => if s.Splits q then append.val else 0

def isEnter : Job → Bool
  | enter _ => true
  | _ => false

/-- The error of the first lookup, if the call ends with it. -/
def stop (creating : Bool) (first : Option Search) (job : Job) : Option ℤ :=
  first.bind fun s =>
    let e := s.lookupi q creating
    if e=0 ∨ job≠.remove ∧ e=ejustreturn then none else some e

end Job

/-- `first` is the lookup that `ext2_dirremove`, `ext2_dirrewrite_nolock` and `ext2_direnter` make
before, when they have no record in the cache or no slot. `convert` is `make_indexed_dir`. -/
inductive Call where
  | lookup (creating : Bool) (s : Search)
  | modify (job : Job) (creating : Bool) (first : Option Search) (s : Search)
  | convert (read : Bool) (append : Fin 75000)

namespace Call

/-- What follows a found entry succeeds. -/
def result : Call → ℤ
  | lookup creating s => s.lookupi q creating
  | modify job creating first s => (job.stop q creating first).getD
      (if job.isEnter ∧ job.err q s=errBadDxDir then s.linear else -job.err q s)
  | convert read append => if read then eio else -append.val

/-- The result is that of the linear code, as the calls have it for `ERR_BAD_DX_DIR`. -/
def FallsBack : Call → Prop
  | lookup _ s => s.found q=.badDxDir
  | modify job creating first s => match job.stop q creating first with
    | some _ => ∃ f∈first,f.found q=.badDxDir
    | none => job.isEnter=true ∧ job.Bad q s
  | convert _ _ => False

/-- A read fails that the call makes. -/
def ReadFails : Call → Prop
  | lookup _ s => s.Fails q
  | modify job creating first s =>
    (∃ f∈first,f.Fails q) ∨ job.stop q creating first=none ∧ job.ReadFails q s
  | convert read _ => read=true

/-- The error of an `ext3_append` that the call makes. -/
def appendErr : Call → ℤ
  | lookup _ _ => 0
  | modify job creating first s => if (job.stop q creating first).isSome then 0 else job.appendErr q s
  | convert read append => if read then 0 else append.val

/-- Each failure is returned as its errno, and a lookup denies only what is not there. -/
def Reports (dir : IndexedDir) (c : Call) : Prop :=
  c.FallsBack q ∨ (c.ReadFails q → c.result q=eio) ∧
    (c.appendErr q≠0 → c.result q=c.appendErr q) ∧ (c.result q).natAbs≠75000 ∧
    ∀ creating s,c=lookup creating s → c.result q=enoent ∨ c.result q=ejustreturn →
      q.dentry.name.bytes∉(liveEntries q.cfg dir).map Prod.fst

/-- When a call reports its failures. -/
def Handles : Call → Prop
  | lookup _ s => ¬s.Fails q
  | modify job creating first s => match job.stop q creating first with
    | some _ => ∀ f∈first,¬f.Fails q
    | none => job.isEnter=true ∧ job.Bad q s ∨ ¬job.Bad q s ∧
        ((∀ f∈first,¬f.Fails q) ∧ ¬job.ReadFails q s ∨ job.GivesEio q s)
  | convert read append => read=true ∨ append=0

end Call

variable {q} {s : Search} {dir : IndexedDir}

theorem Search.lookupi_cases (creating : Bool) (hb : s.found q≠.badDxDir) :
    s.lookupi q creating=0 ∨ s.lookupi q creating=2 ∨ s.lookupi q creating= -2 := by
  unfold lookupi
  cases h : s.found q with
  | badDxDir => exact absurd h hb
  | enoent | eio => cases creating <;> simp
  | _ => exact .inl rfl

/-- A lookup without a failed read is one in the directory itself. -/
theorem Search.absent (creating : Bool) (hb : s.found q≠.badDxDir)
    (hdir : dxFindEntry q.cfg q.seed dir q.dentry.name.bytes=.badDxDir ∨
      Searchable q.cfg (hashing q.seed dir.version) dir) (hseen : s.seen=dir)
    (hno : s.lookupi q creating≠0) :
    q.dentry.name.bytes∉(liveEntries q.cfg dir).map Prod.fst := by
  subst hseen
  rcases (hdir.resolve_left hb).find q.dentry.name.bytes with ⟨y,hy,de,hat,-⟩ | ⟨habs,-⟩
  · have h : s.found q=.at y.2 de := hat
    unfold lookupi at hno
    rw [h] at hno
    exact absurd rfl hno
  · exact habs

/-- It does not return the error of a read. -/
theorem Search.lookupi_reports (creating : Bool) (hb : s.found q≠.badDxDir) :
    ((s.Fails q → s.lookupi q creating=eio) → ¬s.Fails q) ∧
      (s.lookupi q creating).natAbs≠75000 := by
  have hc := s.lookupi_cases creating hb
  refine ⟨fun hm hf => ?_,by omega⟩
  have h5 : s.lookupi q creating=5 := hm hf
  omega

theorem lookup_reports (creating : Bool)
    (hdir : dxFindEntry q.cfg q.seed dir q.dentry.name.bytes=.badDxDir ∨
      Searchable q.cfg (hashing q.seed dir.version) dir)
    (hseen : s.found q≠.badDxDir → ¬s.Fails q → s.seen=dir) :
    (Call.lookup creating s).Reports q dir ↔ (Call.lookup creating s).Handles q := by
  by_cases hb : s.found q=.badDxDir
  · exact ⟨fun _ h => h.1 hb,fun _ => .inl hb⟩
  obtain ⟨hm,habs⟩ := s.lookupi_reports creating hb
  refine ⟨fun h => hm (h.resolve_left hb).1,fun hf => .inr ⟨fun h => absurd h hf,
    fun h => absurd rfl h,habs,?_⟩⟩
  rintro _ _ ⟨⟩ hno
  apply s.absent creating hb hdir (hseen hb hf)
  intro h0
  rcases hno with hno | hno <;> exact absurd (h0.symm.trans hno) (by decide)

theorem Search.findErr_spec : (s.findErr q= -eio ↔ s.Mangled q) ∧
    ((-s.findErr q).natAbs=75000 ↔ s.found q=.badDxDir) := by
  unfold findErr
  cases h : s.found q with
  | eio => by_cases hm : s.Mangled q <;> simp [hm]
  | _ => simp [Mangled,h]

theorem Job.err_spec (job : Job) : (job.err q s= -eio ↔ job.GivesEio q s) ∧
    ((-job.err q s).natAbs=75000 ↔ job.Bad q s) ∧
    (job.appendErr q s≠0 → -job.err q s=job.appendErr q s) := by
  cases job with
  | enter append =>
    have hlt := append.isLt
    unfold err GivesEio Bad appendErr
    cases h : s.added q with
    | ok t =>
      by_cases hs : s.Splits q
      · simp only [hs,if_true,eio,reduceCtorEq,false_or,true_and,neg_inj,neg_neg]
        refine ⟨⟨fun h => Fin.ext (by exact_mod_cast h),fun h => by rw [h]; rfl⟩,?_,fun _ => trivial⟩
        simp
        omega
      · simp [hs]
    | error e =>
      have hs : ¬s.Splits q := fun hs => by
        rw [Search.Splits,h] at hs
        cases hs.1
      cases e <;> simp [hs]
  | _ => exact ⟨s.findErr_spec.1,s.findErr_spec.2,fun h => absurd rfl h⟩

theorem Job.stop_eq_some {job : Job} {creating : Bool} {first : Option Search} {e : ℤ}
    (h : job.stop q creating first=some e) : ∃ f,first=some f ∧ f.lookupi q creating=e := by
  obtain ⟨f,rfl,he⟩ := Option.bind_eq_some_iff.mp h
  dsimp only at he
  split at he <;> cases he
  exact ⟨f,rfl,rfl⟩

theorem modify_reports (job : Job) (creating : Bool) (first : Option Search) :
    (Call.modify job creating first s).Reports q dir ↔
      (Call.modify job creating first s).Handles q := by
  rw [Call.Reports,Call.FallsBack,Call.ReadFails,Call.appendErr,Call.result,Call.Handles]
  cases hstop : job.stop q creating first with
  | some e =>
    obtain ⟨f,rfl,rfl⟩ := Job.stop_eq_some hstop
    by_cases hb : f.found q=.badDxDir
    · exact iff_of_true (.inl ⟨f,rfl,hb⟩) (fun _ hf h => h.1 (Option.mem_some_iff.mp hf ▸ hb))
    obtain ⟨hm,habs⟩ := f.lookupi_reports creating hb
    constructor
    · rintro (⟨f',hf',h⟩ | ⟨h,-⟩) _ hf
      · cases hf'
        exact absurd h hb
      · cases hf
        exact hm (fun hf => h (.inl ⟨f,rfl,hf⟩))
    · intro hf
      refine .inr ⟨?_,fun h => absurd rfl h,habs,nofun⟩
      rintro (⟨f',hf',h⟩ | ⟨h,-⟩)
      · exact absurd h (hf f' hf')
      · cases h
  | none =>
    by_cases hback : job.isEnter=true ∧ job.Bad q s
    · exact iff_of_true (.inl hback) (.inl hback)
    have hres : (if job.isEnter=true ∧ job.err q s=errBadDxDir then s.linear else -job.err q s)=
        -job.err q s := by
      apply if_neg
      rintro ⟨h1,h2⟩
      exact hback ⟨h1,job.err_spec.2.1.mp (by rw [h2]; rfl)⟩
    rw [Option.getD_none,hres,or_iff_right hback,or_iff_right hback]
    constructor
    · rintro ⟨hm,-,habs,-⟩
      refine ⟨fun hb => habs (job.err_spec.2.1.mpr hb),or_iff_not_imp_right.mpr fun heio => ?_⟩
      have hno : ¬((∃ f∈first,f.Fails q) ∨ job.ReadFails q s) := fun h =>
        heio (job.err_spec.1.mp (neg_eq_iff_eq_neg.mp (hm (h.imp_right (⟨rfl,·⟩)))))
      exact ⟨fun f hf h => hno (.inl ⟨f,hf,h⟩),fun h => hno (.inr h)⟩
    · rintro ⟨hb,h⟩
      refine ⟨fun hfail => ?_,fun h => job.err_spec.2.2 h,
        fun h => hb (job.err_spec.2.1.mp h),nofun⟩
      rcases h with ⟨h1,h2⟩ | heio
      · rcases hfail with ⟨f,hf,hfail⟩ | ⟨-,hfail⟩
        · exact absurd hfail (h1 f hf)
        · exact absurd hfail h2
      · rw [job.err_spec.1.mpr heio,neg_neg]

/-- The error of `make_indexed_dir` is returned as it is, a negative one. -/
theorem convert_reports (read : Bool) (append : Fin 75000) :
    (Call.convert read append).Reports q dir ↔ (Call.convert read append).Handles q := by
  cases read with
  | true =>
    exact iff_of_true (.inr ⟨fun _ => rfl,fun h => absurd rfl h,of_decide_eq_true rfl,nofun⟩) (.inl rfl)
  | false =>
    constructor
    · rintro (h | ⟨-,hm,-⟩)
      · exact h.elim
      · by_contra h0
        have hne : (append.val : ℤ)≠0 := fun h => h0 (.inr (Fin.ext (Int.natCast_eq_zero.mp h)))
        have h2 : -(append.val : ℤ)=append.val := hm hne
        omega
    · rintro (h | rfl)
      · cases h
      · exact .inr ⟨nofun,fun h => absurd rfl h,of_decide_eq_true rfl,nofun⟩

section Samples

/-- A search in a sound directory, where the reads of some blocks fail; the buffers of these hold one
free record. -/
def searchTwo (version : ℕ) (failed : ℕ → Bool) : Search :=
  ⟨{ (oneLeaf twoRecords).tree with
    version := version
    leaf := fun b i => if failed b then if i=5 then 4 else 0 else layRecords twoRecords i },
    failed,0,by decide⟩

def queryFor (name : Name) : Query := ⟨smallConfig,⟨0,0,0,0⟩,⟨name,13,some 1⟩⟩

theorem twoRecords_searchable :
    Searchable smallConfig (hashing ⟨0,0,0,0⟩ 2) (oneLeaf twoRecords).tree where
  shape := (@oneLeaf_indexed ⟨0,0,0,0⟩ _ twoRecords_leaf).shape
  known := rfl
  leaf := fun _ _ => ⟨_,twoRecords_leaf⟩
  ranged := ⟨fun _ _ => Nat.zero_le _,nofun,trivial⟩

def unread : Search := searchTwo 2 (fun b => b==1)

def laterRoot : Search := searchTwo 3 (fun _ => false)

end Samples

end Ext2fsX.Htree.Errors
