import Mathlib.Data.Multiset.AddSub

namespace Ext2fsX.Htree.Buffers

/-- The panic of `ext3_journal_dirty_metadata`, a release of a buffer that is not held, and the use
of one that is not there. -/
inductive Stop where
  | dirtyNotFound (b : ℕ)
  | notHeld (b : ℕ)
  | nullBuffer

/-- The buffers of the directory that are held, by logical block. -/
abbrev Held := Multiset ℕ

def brelse (b : ℕ) (m : Held) : Except Stop Held :=
  if b∈m then .ok (m.erase b) else .error (.notHeld b)

variable (dev : ℕ → ℕ)

/-- The buffer is written and looked up again under the number of its device block, `dev b`, in a
cache that knows it under `b`. -/
def journalDirtyMetadata (b : ℕ) (m : Held) : Except Stop Held := do
  let m ← brelse b m
  if dev b=b then pure (m+{b}) else throw (.dirtyNotFound b)

/-- The root or the node cannot be read, the root is not usable, or there are one or two levels of
index blocks. -/
inductive Probe where
  | noRoot
  | badRoot
  | noNode
  | flat
  | deep (node : ℕ)

def dxRelease (node : Option ℕ) (m : Held) : Except Stop Held := do
  let m ← match node with
    | some b => brelse b m
    | none => pure m
  brelse 0 m

inductive Added where
  | ok
  | eio
  | eexist
  | enospc
  deriving DecidableEq

def addDirentToBuf (a : Added) (bh : Option ℕ) (m : Held) : Except Stop Held :=
  match bh with
  | none => throw .nullBuffer
  | some b =>
    match a with
    | .ok => do
        let m ← journalDirtyMetadata dev b m
        brelse b m
    | .enospc => pure m
    | _ => brelse b m

structure SplitAnswers where
  append : Option ℕ
  upper : Bool
  leafError : Bool
  indexError : Bool

/-- On the leaf `bh` under the index block `frame`: whether a record is returned, and what is left
in `*bh`. -/
def doSplit (a : SplitAnswers) (bh frame : ℕ) (m : Held) :
    Except Stop (Bool × Option ℕ × Held) := do
  match a.append with
  | none =>
    let m ← brelse bh m
    pure (false,none,m)
  | some newblock =>
    let m := m+{newblock}
    let bh2 := if a.upper then bh else newblock
    let bh := if a.upper then newblock else bh
    let m ← journalDirtyMetadata dev bh2 m
    -- `journal_error` clears `*bh`, but the record has been chosen and is returned
    if a.leafError then
      let m ← brelse bh m
      let m ← brelse bh2 m
      pure (true,none,m)
    else
      let m ← journalDirtyMetadata dev frame m
      if a.indexError then
        let m ← brelse bh m
        let m ← brelse bh2 m
        pure (true,none,m)
      else
        let m ← brelse bh2 m
        pure (true,some bh,m)

structure IndexAnswers where
  rootFull : Bool
  append : Option ℕ
  right : Bool
  writeError : Bool

/-- What the step for a full index block leaves: the call is over, or `frames[1].bh`. -/
inductive Indexed where
  | ended (node : Option ℕ)
  | go (node : ℕ)

/-- The block `if (dx_get_count(entries) == dx_get_limit(entries))` of `ext3_dx_add_entry`. -/
def splitIndex (a : IndexAnswers) (node : Option ℕ) (m : Held) :
    Except Stop (Indexed × Held) := do
  if node.isSome && a.rootFull then pure (.ended node,m)
  else
    match a.append with
    | none => pure (.ended node,m)
    | some newblock =>
      let m := m+{newblock}
      match node with
      | some node =>
        let bh2 := if a.right then node else newblock
        let frame := if a.right then newblock else node
        let m ← journalDirtyMetadata dev bh2 m
        -- `journal_error` of this function knows nothing of `bh2`
        if a.writeError then pure (.ended (some frame),m)
        else
          let m ← brelse bh2 m
          let m ← journalDirtyMetadata dev 0 m
          pure (.go frame,m)
      | none =>
        let m ← journalDirtyMetadata dev 0 m
        pure (.go newblock,m)

structure AddAnswers where
  probe : Probe
  leaf : Option ℕ
  first : Added
  full : Bool
  index : IndexAnswers
  split : SplitAnswers

def cleanup (bh node : Option ℕ) (m : Held) : Except Stop Held := do
  let m ← match bh with
    | some b => brelse b m
    | none => pure m
  dxRelease node m

/-- `ext3_dx_add_entry` from the split of the leaf on. -/
def splitAndAdd (a : SplitAnswers) (leaf : ℕ) (node : Option ℕ) (m : Held) :
    Except Stop Held := do
  let (de,bh,m) ← doSplit dev a leaf (node.getD 0) m
  if de then
    let m ← addDirentToBuf dev .ok bh m
    cleanup none node m
  else cleanup bh node m

/-- `ext3_dx_add_entry` after `dx_probe`, with `node` in `frames[1]`. -/
def addFramed (a : AddAnswers) (node : Option ℕ) (m : Held) :
    Except Stop Held := do
  match a.leaf with
  | none => cleanup none node m
  | some leaf =>
    let m ← addDirentToBuf dev a.first (some leaf) (m+{leaf})
    if a.first≠.enospc then cleanup none node m
    else if a.full then
      let (r,m) ← splitIndex dev a.index node m
      match r with
      | .ended node => cleanup (some leaf) node m
      | .go node => splitAndAdd dev a.split leaf (some node) m
    else splitAndAdd dev a.split leaf node m

def dxAddEntry (a : AddAnswers) (m : Held) : Except Stop Held :=
  match a.probe with
  | .noRoot => pure m
  | .badRoot => brelse 0 (m+{0})
  | .noNode => brelse 0 (m+{0})
  | .flat => addFramed dev a none (m+{0})
  | .deep node => addFramed dev a (some node) (m+{0}+{node})

inductive Looked where
  | hit
  | bad
  | miss

/-- The search is over (or a node cannot be read), the next leaf is under the same index block, or
another node has to be read. -/
inductive Next where
  | ended
  | same
  | node (b : ℕ)

structure LeafAnswers where
  leaf : Option ℕ
  looked : Looked
  next : Next

/-- The loop of `ext3_dx_find_entry`; the buffer of the leaf is returned with the record. -/
def findLoop : List LeafAnswers → Option ℕ → Held → Except Stop (Option ℕ × Held)
  | [],node,m => do
      let m ← dxRelease node m
      pure (none,m)
  | a::as,node,m =>
    match a.leaf with
    | none => do
        let m ← dxRelease node m
        pure (none,m)
    | some b =>
      match a.looked with
      | .hit => do
          let m ← dxRelease node (m+{b})
          pure (some b,m)
      | .bad => do
          let m ← brelse b (m+{b})
          let m ← dxRelease node m
          pure (none,m)
      | .miss => do
          let m ← brelse b (m+{b})
          match a.next,node with
          | .ended,_ =>
            let m ← dxRelease node m
            pure (none,m)
          | .node new,some old =>
            let m ← brelse old (m+{new})
            findLoop as (some new) m
          | _,_ => findLoop as node m

def dxFindEntry (probe : Probe) (leaves : List LeafAnswers) (m : Held) :
    Except Stop (Option ℕ × Held) :=
  match probe with
  | .noRoot => pure (none,m)
  | .badRoot => do
      let m ← brelse 0 (m+{0})
      pure (none,m)
  | .noNode => do
      let m ← brelse 0 (m+{0})
      pure (none,m)
  | .flat => findLoop leaves none (m+{0})
  | .deep node => findLoop leaves (some node) (m+{0}+{node})

/-- `ext3_delete_entry` on the block `bh`, which is written when the record is found in it. -/
def deleteEntry (found : Bool) (bh : ℕ) (m : Held) : Except Stop Held :=
  if found then journalDirtyMetadata dev bh m else pure m

/-- An entry is added, or one is looked for and deleted, as `ext2_dirremove` does it. -/
inductive Call where
  | add (a : AddAnswers)
  | remove (probe : Probe) (leaves : List LeafAnswers) (found : Bool)

def Call.run : Call → Held → Except Stop Held
  | .add a,m => dxAddEntry dev a m
  | .remove probe leaves found,m => do
      let (bh,m) ← dxFindEntry probe leaves m
      match bh with
      | none => pure m
      | some b =>
        let m ← deleteEntry dev found b m
        brelse b m

def runAll : List Call → Held → Except Stop Held
  | [],m => pure m
  | c::cs,m => do
      let m ← c.run dev m
      runAll cs m

/-- The buffers that `do_split` and `add_dirent_to_buf` after it write, and which of these writes
fails where the error is looked at. -/
def SplitAnswers.writes (a : SplitAnswers) (leaf frame : ℕ) : List (ℕ × Bool) :=
  match a.append with
  | none => []
  | some newblock =>
    [(if a.upper then leaf else newblock,a.leafError),(frame,a.indexError),
      (if a.upper then newblock else leaf,false)]

/-- The same for a full index block, with the index block above the leaf behind it. -/
def IndexAnswers.writes (a : IndexAnswers) (node : Option ℕ) : Option (List (ℕ × Bool) × ℕ) :=
  if node.isSome && a.rootFull then none
  else
    a.append.map fun newblock =>
      match node with
      | some node =>
        ([(if a.right then node else newblock,a.writeError),(0,false)],
          if a.right then newblock else node)
      | none => ([(0,false)],newblock)

def AddAnswers.writes (a : AddAnswers) (node : Option ℕ) : List (ℕ × Bool) :=
  match a.leaf,a.first with
  | some leaf,.ok => [(leaf,false)]
  | some leaf,.enospc =>
    if a.full then
      match a.index.writes node with
      | none => []
      | some (ws,frame) => ws++a.split.writes leaf frame
    else a.split.writes leaf (node.getD 0)
  | _,_ => []

/-- The leaf in which the search finds the record. -/
def hitLeaf : List LeafAnswers → Option ℕ
  | [] => none
  | a::as =>
    match a.leaf,a.looked,a.next with
    | some b,.hit,_ => some b
    | some _,.miss,.same => hitLeaf as
    | some _,.miss,.node _ => hitLeaf as
    | _,_,_ => none

def Call.writes : Call → List (ℕ × Bool)
  | .add a =>
    match a.probe with
    | .flat => a.writes none
    | .deep node => a.writes (some node)
    | _ => []
  | .remove probe leaves found =>
    match probe with
    | .flat | .deep _ => if found then (hitLeaf leaves).toList.map (·,false) else []
    | _ => []

/-- The buffer is found again under the number of its device block, and its write does not fail. -/
def Clean (dev : ℕ → ℕ) (w : ℕ × Bool) : Prop := dev w.1=w.1 ∧ w.2=false

section Balance

variable {dev : ℕ → ℕ} {m : Held}

@[simp] theorem ok_bind {α β : Type} (x : α) (f : α → Except Stop β) : (.ok x >>= f)=f x := rfl

@[simp] theorem error_bind {α β : Type} (e : Stop) (f : α → Except Stop β) :
    (.error e >>= f)=.error e := rfl

@[simp] theorem throw_error {α : Type} (e : Stop) : (throw e : Except Stop α)=.error e := rfl

@[simp] theorem pure_ok {α : Type} (x : α) : (pure x : Except Stop α)=.ok x := rfl

@[simp] theorem brelse_add (b : ℕ) (m : Held) : brelse b (m+{b})=.ok m := by
  unfold brelse
  rw [if_pos (by simp),Multiset.add_comm,Multiset.singleton_add,Multiset.erase_cons_head]

theorem held_swap (b c : ℕ) (m : Held) : m+{b}+{c}=m+{c}+{b} := by
  rw [Multiset.add_assoc,Multiset.add_comm {b},← Multiset.add_assoc]

theorem brelse_under (b c : ℕ) (m : Held) : brelse b (m+{b}+{c})=.ok (m+{c}) := by
  rw [held_swap,brelse_add]

theorem journalDirty_held {b : ℕ} (hb : b∈m) : journalDirtyMetadata dev b m=
    if dev b=b then .ok m else .error (.dirtyNotFound b) := by
  have hback : m.erase b+{b}=m := by
    rw [Multiset.add_comm,Multiset.singleton_add,Multiset.cons_erase hb]
  simp [journalDirtyMetadata,brelse,hb,hback]

def framed (node : Option ℕ) (m : Held) : Held :=
  match node with
  | some b => m+{0}+{b}
  | none => m+{0}

variable (node : Option ℕ)

@[simp] theorem dxRelease_framed (m : Held) : dxRelease node (framed node m)=.ok m := by
  cases node <;> simp [dxRelease,framed]

theorem framed_add (m : Held) (b : ℕ) : framed node m+{b}=framed node (m+{b}) := by
  cases node with
  | none => exact held_swap 0 b m
  | some c =>
    change m+{0}+{c}+{b}=m+{b}+{0}+{c}
    rw [held_swap c b,held_swap 0 b]

theorem mem_framed (m : Held) : node.getD 0∈framed node m := by
  cases node <;> simp [framed]

theorem splitAndAdd_iff {a : SplitAnswers} {leaf : ℕ} {node : Option ℕ} (m : Held) :
    splitAndAdd dev a leaf node (framed node m+{leaf})=.ok m ↔
      ∀ w∈a.writes leaf (node.getD 0),Clean dev w := by
  unfold splitAndAdd doSplit SplitAnswers.writes
  have hf := mem_framed node m
  generalize node.getD 0=frame at hf ⊢
  cases a.append with
  | none => simp [cleanup]
  | some newblock =>
    have hheld : framed node m+{leaf}+{newblock}=framed node m+
        {if a.upper then newblock else leaf}+{if a.upper then leaf else newblock} := by
      cases a.upper with
      | true => exact held_swap leaf newblock _
      | false => rfl
    dsimp only
    rw [hheld]
    generalize (if a.upper then leaf else newblock)=bh2
    generalize (if a.upper then newblock else leaf)=bh
    -- a buffer that is not found again ends the call, and so does a record without a buffer
    by_cases h2 : dev bh2=bh2
    · cases a.leafError with
      | true => simp [journalDirty_held,h2,brelse_under,addDirentToBuf,Clean]
      | false =>
        by_cases h0 : dev frame=frame
        · cases a.indexError with
          | true => simp [journalDirty_held,h2,h0,hf,brelse_under,addDirentToBuf,Clean]
          | false =>
            by_cases h1 : dev bh=bh <;>
              simp [journalDirty_held,h2,h0,h1,hf,addDirentToBuf,cleanup,Clean]
        · simp [journalDirty_held,h2,h0,hf,Clean]
    · simp [journalDirty_held,h2,Clean]

/-- A full index block is split if the buffers are found again and no write fails. -/
theorem splitIndex_spec {a : IndexAnswers} (node : Option ℕ) (leaf : ℕ) (m : Held) :
    match a.writes node with
    | none => splitIndex dev a node (framed node m+{leaf})=.ok (.ended node,framed node m+{leaf})
    | some (ws,frame) =>
      ((∀ w∈ws,Clean dev w) ∧
        splitIndex dev a node (framed node m+{leaf})=.ok (.go frame,framed (some frame) m+{leaf})) ∨
      (¬(∀ w∈ws,Clean dev w) ∧ ((∃ e,splitIndex dev a node (framed node m+{leaf})=.error e) ∨
          ∃ b x,splitIndex dev a node (framed node m+{leaf})=
            .ok (.ended (some b),framed (some b) m+{leaf}+{x}))) := by
  unfold splitIndex IndexAnswers.writes
  by_cases hfull : (node.isSome && a.rootFull)=true
  · rw [if_pos hfull,if_pos hfull]
    rfl
  rw [if_neg hfull,if_neg hfull]
  cases a.append with
  | none => rfl
  | some newblock =>
    cases node with
    | none =>
      by_cases h0 : dev 0=0
      · refine .inl ⟨by simpa [Clean] using h0,?_⟩
        simp [framed,journalDirty_held,h0,held_swap leaf newblock]
      · refine .inr ⟨by simpa [Clean] using h0,.inl ⟨.dirtyNotFound 0,?_⟩⟩
        simp [framed,journalDirty_held,h0]
    | some c =>
      have hheld : framed (some c) m+{leaf}+{newblock}=
          framed (some (if a.right then newblock else c)) m+{leaf}+{if a.right then c else newblock} := by
        cases a.right with
        | true =>
          simp only [framed,if_true]
          rw [held_swap c leaf,held_swap c newblock,held_swap leaf newblock]
        | false => rfl
      dsimp only [Option.map_some]
      rw [hheld]
      generalize (if a.right then c else newblock)=bh2
      generalize (if a.right then newblock else c)=frame
      by_cases h2 : dev bh2=bh2
      · cases a.writeError with
        | true =>
          refine .inr ⟨by simp [Clean],.inr ⟨frame,bh2,?_⟩⟩
          simp [journalDirty_held,h2]
        | false =>
          by_cases h0 : dev 0=0
          · refine .inl ⟨by simp [Clean,h2,h0],?_⟩
            simp [framed,journalDirty_held,h2,h0]
          · refine .inr ⟨by simp [Clean,h0],.inl ⟨.dirtyNotFound 0,?_⟩⟩
            simp [framed,journalDirty_held,h2,h0]
      · refine .inr ⟨by simp [Clean,h2],.inl ⟨.dirtyNotFound bh2,?_⟩⟩
        simp [journalDirty_held,h2]

theorem addFramed_iff {a : AddAnswers} {node : Option ℕ} (m : Held) :
    addFramed dev a node (framed node m)=.ok m ↔ ∀ w∈a.writes node,Clean dev w := by
  unfold addFramed AddAnswers.writes
  cases a.leaf with
  | none => simp [cleanup]
  | some leaf =>
    cases a.first with
    | ok => by_cases h : dev leaf=leaf <;> simp [addDirentToBuf,journalDirty_held,h,cleanup,Clean]
    | eio => simp [addDirentToBuf,cleanup]
    | eexist => simp [addDirentToBuf,cleanup]
    | enospc =>
      cases a.full with
      | false => simpa [addDirentToBuf] using splitAndAdd_iff m
      | true =>
        have hi := @splitIndex_spec dev a.index node leaf m
        simp only [addDirentToBuf,pure_ok,ok_bind,ne_eq,not_true_eq_false,if_false,if_true]
        cases hw : a.index.writes node with
        | none =>
          rw [hw] at hi
          simp only at hi
          simp [hi,cleanup]
        | some p =>
          obtain ⟨ws,frame⟩ := p
          rw [hw] at hi
          simp only [List.forall_mem_append]
          rcases hi with ⟨hc,hi⟩ | ⟨hc,⟨e,hi⟩ | ⟨b,x,hi⟩⟩
          · rw [hi]
            exact (splitAndAdd_iff m).trans (and_iff_right hc).symm
          · rw [hi]
            exact iff_of_false nofun fun h => hc h.1
          · have hleft : cleanup (some leaf) (some b) (framed (some b) m+{leaf}+{x})=.ok (m+{x}) := by
              simp only [cleanup,brelse_under,ok_bind]
              rw [framed_add,dxRelease_framed]
            refine iff_of_false (fun h => ?_) fun h => hc h.1
            rw [hi] at h
            have hcard := congrArg Multiset.card (Except.ok.inj (hleft.symm.trans h))
            simp at hcard

theorem findLoop_eq (leaves : List LeafAnswers) (node : Option ℕ) (m : Held) :
    findLoop leaves node (framed node m)=
      .ok (hitLeaf leaves,match hitLeaf leaves with | some b => m+{b} | none => m) := by
  induction leaves generalizing node with
  | nil => simp [findLoop,hitLeaf]
  | cons a leaves ih =>
    rw [findLoop,hitLeaf]
    cases a.leaf with
    | none => simp
    | some b =>
      cases a.looked with
      | hit => simp [framed_add]
      | bad => simp
      | miss =>
        cases a.next with
        | ended => simp
        | same => simpa using ih node
        | node new =>
          cases node with
          | none => simpa using ih none
          | some old => simpa [framed,brelse_under] using ih (some new)

theorem Call.run_iff {c : Call} (m : Held) : c.run dev m=.ok m ↔ ∀ w∈c.writes,Clean dev w := by
  cases c with
  | add a =>
    rw [Call.run,dxAddEntry,Call.writes]
    cases a.probe with
    | flat => exact @addFramed_iff dev a none m
    | deep b => exact @addFramed_iff dev a (some b) m
    | _ => simp
  | remove probe leaves found =>
    have hrest (node : Option ℕ) : (do
        let (bh,m) ← findLoop leaves node (framed node m)
        match bh with
        | none => pure m
        | some b =>
          let m ← deleteEntry dev found b m
          brelse b m)=.ok m ↔
        ∀ w∈if found then (hitLeaf leaves).toList.map (·,false) else [],Clean dev w := by
      rw [findLoop_eq]
      cases hitLeaf leaves with
      | none => cases found <;> simp
      | some b =>
        cases found with
        | false => simp [deleteEntry]
        | true => by_cases h : dev b=b <;> simp [deleteEntry,journalDirty_held,h,Clean]
    cases probe with
    | flat => exact hrest none
    | deep b => exact hrest (some b)
    | _ => simp [Call.run,dxFindEntry,Call.writes]

end Balance

/-- After every call of a sequence all buffers taken are released, each once, if and only if the
calls find again the buffers that they write, under the numbers of their device blocks, and no write
fails whose error a call looks at. -/
theorem buffers_balanced_iff (dev : ℕ → ℕ) (cs : List Call) (m : Held) :
    (∀ k,runAll dev (cs.take k) m=.ok m) ↔ ∀ c∈cs,∀ w∈c.writes,Clean dev w := by
  induction cs with
  | nil => simp [runAll]
  | cons c cs ih =>
    rw [List.forall_mem_cons,←ih,←Call.run_iff m]
    constructor
    · intro h
      have h1 : c.run dev m=.ok m := by
        have h1 := h 1
        rw [List.take_succ_cons,List.take_zero,runAll] at h1
        cases hc : c.run dev m with
        | error e => simp [hc] at h1
        | ok m' => simpa [hc,runAll] using h1
      refine ⟨h1,fun k => ?_⟩
      have hk := h (k+1)
      rw [List.take_succ_cons,runAll,h1] at hk
      exact hk
    · rintro ⟨h1,h⟩ k
      cases k with
      | zero => rfl
      | succ k =>
        rw [List.take_succ_cons,runAll,h1]
        exact h k

def addInLeaf (a : Added) : Call :=
  .add ⟨.flat,some 1,a,false,⟨false,none,false,false⟩,⟨none,false,false,false⟩⟩

/-- A name that is there is added, and one that is not is removed: nothing is written. -/
theorem buffers_balanced_two :
    runAll (fun b => 2*(b+250)) [addInLeaf .eexist,.remove .flat [⟨some 1,.miss,.ended⟩] false] 0=
      .ok 0 := by
  apply (buffers_balanced_iff (fun b => 2*(b+250))
    [addInLeaf .eexist,.remove .flat [⟨some 1,.miss,.ended⟩] false] 0).mpr _ 2
  intro c hc
  rcases List.mem_pair.mp hc with rfl | rfl <;> exact nofun

/-- With the directory in the blocks 250, 251 and so on of 1024 bytes, the first entry added ends in
the panic. -/
theorem add_panics :
    runAll (fun b => 2*(b+250)) [addInLeaf .ok] 0=.error (.dirtyNotFound 1) := rfl


end Ext2fsX.Htree.Buffers
