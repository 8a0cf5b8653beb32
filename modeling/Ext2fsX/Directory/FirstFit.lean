import Ext2fsX.Directory.Locate

namespace Ext2fsX.Directory

open Framework

variable {cfg : Config}

def roomyRecord (need : ℕ) : ℕ → List Record → Option (ℕ × ℕ)
  | _,[] => none
  | o,r::rs => if need ≤ r.free then some (o,r.recLen) else roomyRecord need (o+r.recLen) rs

/-- The first records of one block that together have `need` bytes to give away: where they start,
and their length. `free` bytes have been counted from `start` on. -/
def roomyRun (cfg : Config) (need : ℕ) : ℕ → Option ℕ → ℕ → List Record → Option (ℕ × ℕ)
  | _,_,_,[] => none
  | o,start,free,r::rs =>
    let start := if o%cfg.blocksize=0 then none else start
    let free := if o%cfg.blocksize=0 then 0 else free
    if r.free=0 then roomyRun cfg need (o+r.recLen) start free rs
    else if need≤free+r.free then some (start.getD o,o+r.recLen-start.getD o)
    else roomyRun cfg need (o+r.recLen) (some (start.getD o)) (free+r.free) rs

def roomFor (cfg : Config) (need : ℕ) (rs : List Record) : ℕ × ℕ :=
  ((roomyRecord need 0 rs).or (roomyRun cfg need 0 none 0 rs)).getD (total Record.recLen rs,0)

def Dir.room (cfg : Config) (d : Dir) (name : Name) : ℕ × ℕ :=
  roomFor cfg (dirRecLen name.bytes.length) d.records

/-- The slot that a search for space leaves in `i_offset` and `i_count`. -/
def SearchSlot.chosen (cfg : Config) (ss : SearchSlot) (size : ℕ) : ℕ × ℕ :=
  match ss.status,ss.offset with
  | .compact,some o | .found,some o => (o,ss.size)
  | _,_ => (cfg.roundup size,0)

/-- What the search will choose when `rs` is still to be seen. -/
def SearchSlot.willChoose (cfg : Config) (ss : SearchSlot) (size o : ℕ) (rs : List Record) :
    ℕ × ℕ :=
  match ss.status with
  | .found => ss.chosen cfg size
  | .compact => (roomyRecord ss.needed o rs).getD (ss.chosen cfg size)
  | .none => ((roomyRecord ss.needed o rs).or
      (roomyRun cfg ss.needed o ss.offset ss.freespace rs)).getD (cfg.roundup size,0)

variable (ss : SearchSlot)

theorem SearchSlot.willChoose_nil (size o : ℕ) :
    ss.willChoose cfg size o []=ss.chosen cfg size := by
  unfold willChoose SearchSlot.chosen
  cases ss.status <;> simp [roomyRecord,roomyRun]

theorem SearchSlot.willChoose_see (hneed : 0 < ss.needed) (size o : ℕ) (r : Record)
    (rs : List Record) :
    ((if o%cfg.blocksize=0 then ss.restart else ss).see o r).willChoose cfg size (o+r.recLen) rs=
      ss.willChoose cfg size o (r::rs) := by
  obtain ⟨status,start,len,free,need⟩ := ss
  have hfree : r.recLen-r.used=r.free := rfl
  dsimp only at hneed
  cases status with
  | found => simp [restart,see,willChoose]
  | compact =>
    simp only [restart,see,willChoose,roomyRecord,hfree]
    by_cases hn : need ≤ r.free
    · have h0 : r.free≠0 := by omega
      simp [h0,hn,chosen]
    · by_cases h0 : r.free=0
      · have hz : ¬need≤0 := by omega
        simp [h0,hz,chosen]
      · simp [h0,hn,chosen]
  | none =>
    -- the counters at the start of a block
    have hr : (if o%cfg.blocksize=0 then restart ⟨.none,start,len,free,need⟩
        else ⟨.none,start,len,free,need⟩)=
        ⟨.none,if o%cfg.blocksize=0 then none else start,len,
          if o%cfg.blocksize=0 then 0 else free,need⟩ := by
      split <;> simp [restart]
    rw [hr]
    simp only [willChoose,roomyRecord,roomyRun]
    generalize (if o%cfg.blocksize=0 then 0 else free)=free'
    simp only [see,hfree]
    by_cases hn : need ≤ r.free
    · have h0 : r.free≠0 := by omega
      simp [h0,hn,chosen]
    by_cases h0 : r.free=0
    · have hz : ¬need≤0 := by omega
      simp [h0,hz]
    · by_cases hsum : need≤free'+r.free
      · simp [h0,hn,hsum,chosen]
      · simp [h0,hn,hsum]

theorem SearchSlot.see_needed (o : ℕ) (r : Record) : (ss.see o r).needed=ss.needed := by
  unfold see
  dsimp only
  split_ifs <;> rfl

theorem SearchSlot.restart_needed : ss.restart.needed=ss.needed := by
  unfold restart
  split <;> rfl

theorem searchList_chosen (cfg : Config) {name : List UInt8} {rs : List Record} {s : Search}
    (size : ℕ) (habs : ∀ r∈rs,r.hit name=false) (hneed : 0 < s.slot.needed) :
    ∃ s',searchList cfg [] name rs s=.notfound s' ∧
      s'.slot.chosen cfg size=s.slot.willChoose cfg size s.offset rs := by
  induction rs generalizing s with
  | nil => exact ⟨s,rfl,(s.slot.willChoose_nil size s.offset).symm⟩
  | cons r rs ih =>
    have hr := habs r (by simp)
    have hneed' : 0<(s.after cfg r).slot.needed := by
      change 0<SearchSlot.needed (SearchSlot.see _ s.offset r)
      rw [SearchSlot.see_needed]
      split
      · rw [SearchSlot.restart_needed]
        exact hneed
      · exact hneed
    obtain ⟨s',h1,h2⟩ := ih (fun q hq => habs q (List.mem_cons_of_mem r hq)) hneed'
    refine ⟨s',?_,?_⟩
    · simp only [searchList,List.not_mem_nil,and_false,if_false,hr,Bool.false_eq_true]
      exact h1
    · rw [h2]
      exact s.slot.willChoose_see hneed size s.offset r rs

theorem Layout.search_roomFor {d : Dir} {rs : List Record} (h : Layout cfg d rs)
    (hsmall : d.size<2147483648) {op : NameiOp} (hop : op.wantsSlot=true) {name : List UInt8} (habs : ∀ r∈rs,r.hit name=false) :
    ∃ s,d.search cfg op name []=.notfound s ∧
      s.slot.chosen cfg d.size=roomFor cfg (dirRecLen name.length) rs := by
  have hne : op≠.lookup := by
    rintro rfl
    cases hop
  have hpos : 0<dirRecLen name.length := by
    have := dirRecLen_bounds name.length
    omega
  rw [h.search_eq name [] (.inl hne),Search.start,if_pos hop,Dir.seen_small hsmall]
  obtain ⟨s,h1,h2⟩ := searchList_chosen cfg
    (s := ⟨0,0,0,0,⟨.none,none,0,0,dirRecLen name.length⟩⟩) d.size habs hpos
  refine ⟨s,h1,h2.trans ?_⟩
  unfold SearchSlot.willChoose roomFor
  rw [h.size_eq,cfg.roundup_of_dvd h.blocks]

end Ext2fsX.Directory
