import QData.WriterPipeline
import QData.WriterDiscipline
import QData.PushCounts
import QData.ObjectCodec
import QData.ReaderEquivalence
import QData.Announcements
/-! How `write_multi_thread` and `read_multi_thread` are left: whether the flow graph was
waited for before its nodes go. -/
set_option autoImplicit false

namespace QData
open Words Requests Systems Sequencing Boundaries

/-- The graph was waited for; an exception of the caller's own goes past the wait. -/
def WriterPhase.Waited : WriterPhase → Prop
  | .finished _ => True
  | _ => False

def ReaderPhase.Waited {α : Type} : ReaderPhase α → Prop
  | .returned _ | .thrown _ => True
  | _ => False

section
variable {cp : Compressor} {xxh : Bytes → UInt64} {directMem : Bool} {failure : Option String}
  {calls : List PushOp} {s : WriterPipeline}

theorem WriterRuns.idle (run : WriterRuns cp xxh directMem failure calls s)
    (h : s.phase.Waited) : s.Idle := by
  obtain ⟨blocks,_,ha⟩ := WriterInv.run run
  cases hphase : s.phase with
  | finished hash => simp only [Accounts,hphase] at ha; exact ha.2.1
  | pushing => rw [hphase] at h; cases h
  | waiting => rw [hphase] at h; cases h
  | thrown msg => rw [hphase] at h; cases h

variable (cp xxh directMem failure) in
theorem submit_all (s : WriterPipeline) :
    ∃ t, Runs (WriterStep cp xxh directMem failure) s t ∧ t.phase = s.phase ∧
      t.calls = s.calls ∧ t.producer.outgoing = [] ∧ t.producer.block = s.producer.block ∧
      t.tasks = s.tasks ++ s.producer.outgoing := by
  induction h : s.producer.outgoing generalizing s with
  | nil => exact ⟨s,.refl,rfl,rfl,h,rfl,by simp⟩
  | cons sub rest ih =>
    obtain ⟨t,ht,h₁,h₂,h₃,h₄,h₅⟩ := ih { s with
      producer := { s.producer with outgoing := rest }
      tasks := s.tasks ++ [sub] } rfl
    exact ⟨t,.head (.submit h) ht,h₁,h₂,h₃,h₄,by simpa using h₅⟩

variable (cp xxh directMem failure) in
theorem calls_run (s : WriterPipeline) (pushing : s.phase = .pushing)
    (taken : s.producer.outgoing = []) :
    ∃ t, Runs (WriterStep cp xxh directMem failure) s t ∧ t.phase = .pushing ∧
      t.calls = [] ∧ t.producer.outgoing = [] ∧
      t.tasks.length = s.tasks.length + (cutCalls s.producer.block s.calls).1.length := by
  induction h : s.calls generalizing s with
  | nil => exact ⟨s,.refl,pushing,h,taken,by simp [cutCalls]⟩
  | cons op ops ih =>
    have hsent := s.producer.push_sent directMem op
    obtain ⟨u,hu,h₁,h₂,h₃,h₄,h₅⟩ := submit_all cp xxh directMem failure
      { s with producer := s.producer.push directMem op, calls := ops }
    obtain ⟨t,ht,k₁,k₂,k₃,k₄⟩ := ih u (h₁.trans pushing) h₃ h₂
    refine ⟨t,.head (.call pushing taken h) (hu.trans ht),k₁,k₂,k₃,?_⟩
    have hout := hsent.outgoing_length
    rw [taken,List.length_nil,Nat.zero_add] at hout
    rw [k₄,h₄,h₅,List.length_append]
    simp only [cutCalls,List.length_append,hsent.block]
    omega

variable (cp xxh directMem calls) in
/-- An exception of the caller can leave behind as many tasks as it has completed blocks. -/
theorem throw_leaves_tasks (msg : String) :
    ∃ s, WriterRuns cp xxh directMem (some msg) calls s ∧ s.phase = .thrown msg ∧
      s.tasks.length = (cutCalls [] calls).1.length := by
  obtain ⟨t,ht,h₁,h₂,h₃,h₄⟩ := calls_run cp xxh directMem (some msg)
    { calls := calls } rfl rfl
  exact ⟨_,ht.tail (.throw h₁ h₃ h₂ rfl),rfl,by simpa using h₄⟩

end

/-- The writing, when the thread that calls may be refused memory: behind `k` calls, for a
payload queue that grows or a block that takes the place of a submitted one. -/
def WriteRun.within (granted : Nat → Bool) (r : WriteRun) : WriteRun :=
  match (List.range (r.pushed.length+1)).find? (fun k => !granted k) with
  | some k => { r with pushed := r.pushed.take k, error := some "std::bad_alloc" }
  | none => r

theorem WriteRun.within_error (granted : Nat → Bool) (r : WriteRun) :
    (r.within granted).error = none ↔
      r.error = none ∧ ∀ k ≤ r.pushed.length, granted k = true := by
  unfold WriteRun.within
  cases hf : (List.range (r.pushed.length+1)).find? (fun k => !granted k) with
  | some k =>
    refine ⟨nofun,fun h => ?_⟩
    have hk := List.find?_some hf
    have hmem := List.mem_range.mp (List.mem_of_find?_eq_some hf)
    rw [h.2 k (Nat.le_of_lt_succ hmem)] at hk
    cases hk
  | none =>
    refine ⟨fun h => ⟨h,fun k hk => ?_⟩,And.left⟩
    have hall := List.find?_eq_none.mp hf k (List.mem_range.mpr (Nat.lt_succ_of_le hk))
    simpa using hall

theorem WriteRun.within_enough {granted : Nat → Bool} (h : ∀ k, granted k = true)
    (r : WriteRun) : r.within granted = r := by
  unfold WriteRun.within
  rw [List.find?_eq_none.mpr fun k _ => by simp [h k]]

/-- `write_multi_thread` of a value: however it is left, the graph was waited for and has
nothing under way. -/
def WriterExits (cp : Compressor) (xxh : Bytes → UInt64) (directMem : Bool)
    (granted : Nat → Bool) (maxDepth : Nat) (v : Value) : Prop :=
  ∀ s, WriterRuns cp xxh directMem ((streamWrite maxDepth v).within granted).error
    ((streamWrite maxDepth v).within granted).pushed s → s.phase.Exited →
      s.phase.Waited ∧ s.Idle

/-- `read_multi_thread` of a stream, likewise. -/
def ReaderExits (dp : Decompressor) (memory : Allocator) (resets : Bool) (maxDepth : Nat)
    (stream : Bytes) : Prop :=
  ∀ s, ReaderRuns dp (streamReadWithin memory maxDepth) resets stream s → s.phase.Exited →
    s.phase.Waited ∧ s.Idle

theorem WriterExits.not_thrown {cp : Compressor} {xxh : Bytes → UInt64} {directMem : Bool}
    {granted : Nat → Bool} {maxDepth : Nat} {v : Value}
    (h : WriterExits cp xxh directMem granted maxDepth v) {s : WriterPipeline}
    (run : WriterRuns cp xxh directMem ((streamWrite maxDepth v).within granted).error
      ((streamWrite maxDepth v).within granted).pushed s) (msg : String) :
    s.phase ≠ .thrown msg := by
  intro hphase
  have hw := (h s run (by rw [hphase]; trivial)).1
  rw [hphase] at hw
  cases hw

theorem ReaderExits.not_escaped {dp : Decompressor} {memory : Allocator} {resets : Bool}
    {maxDepth : Nat} {stream : Bytes} (h : ReaderExits dp memory resets maxDepth stream)
    {s : ReaderPipeline Object}
    (run : ReaderRuns dp (streamReadWithin memory maxDepth) resets stream s) (msg : String) :
    s.phase ≠ .escaped msg := by
  intro hphase
  have hw := (h s run (by rw [hphase]; trivial)).1
  rw [hphase] at hw
  cases hw

theorem writerExits_iff (cp : Compressor) (xxh : Bytes → UInt64) (directMem : Bool)
    (granted : Nat → Bool) (maxDepth : Nat) (v : Value) :
    WriterExits cp xxh directMem granted maxDepth v ↔
      (maxDepth ≠ 0 ∧ v.WithinLimits ∧ v.depth ≤ maxDepth) ∧
        ∀ k ≤ v.pushes, granted k = true := by
  have hpushes : (maxDepth ≠ 0 ∧ v.WithinLimits ∧ v.depth ≤ maxDepth) ∧
      (∀ k ≤ v.pushes, granted k = true) ↔
        ((streamWrite maxDepth v).within granted).error = none := by
    rw [← streamWrite_error,WriteRun.within_error]
    exact and_congr_right fun h => by rw [streamWrite_pushes h]
  rw [hpushes]
  cases he : ((streamWrite maxDepth v).within granted).error with
  | some msg =>
    refine ⟨fun h => ?_,nofun⟩
    obtain ⟨s,run,hphase,_⟩ := throw_leaves_tasks cp xxh directMem
      ((streamWrite maxDepth v).within granted).pushed msg
    rw [← he] at run
    exact absurd hphase (h.not_thrown run msg)
  | none =>
    refine ⟨fun _ => rfl,fun _ s run exited => ?_⟩
    rw [he] at run
    have hw : s.phase.Waited := by
      obtain ⟨hash,hphase⟩ := run.exited_finished exited
      rw [hphase]
      trivial
    exact ⟨hw,run.idle hw⟩

section
variable {α : Type} {dp : Decompressor} {p : Reader α} {resets : Bool} {stream : Bytes}

variable (resets) in
theorem deliver_each (k : Nat) (hk : k ≤ ((streamSource dp).feed stream).blocks.length)
    (asks : ∀ j < k, demand p (((streamSource dp).feed stream).blocks.take j) =
      .error .blocked) :
    ∃ rest q, ((streamSource dp).feed rest).blocks =
        ((streamSource dp).feed stream).blocks.drop k ∧
      q.head = k ∧ (∀ n, q.slots n = none) ∧
      ReaderRuns dp p resets stream
        { stream := rest, blocksToProcess := k, sequencer := q, blocksProcessed := k,
          got := ((streamSource dp).feed stream).blocks.take k } := by
  induction k with
  | zero => exact ⟨stream,.empty,rfl,rfl,fun _ => rfl,Relation.ReflTransGen.refl⟩
  | succ k ih =>
    obtain ⟨rest,q,hfeed,hhead,hslots,run⟩ := ih (by omega) fun j hj => asks j (by omega)
    generalize hblocks : ((streamSource dp).feed stream).blocks = blocks at *
    have hcons : blocks.drop k = blocks[k] :: blocks.drop (k+1) := List.drop_eq_getElem_cons hk
    cases hf : (streamSource dp).fetch rest with
    | error e =>
      rw [BlockSource.feed_error hf,hcons] at hfeed
      cases hfeed
    | ok r =>
      obtain ⟨b,rest'⟩ := r
      rw [BlockSource.feed_ok hf,hcons] at hfeed
      obtain ⟨hb,hrest'⟩ := List.cons.inj hfeed
      obtain ⟨zsize,zbytes,hread,hne,hdec⟩ := decompressNext_ok hf
      have read := run.tail (.read rfl hread)
      have decompressed := read.tail (.decompress [] [] rfl (by rw [hdec]; exact hne))
      have sequenced := decompressed.tail (.sequence [] [] rfl)
      obtain ⟨hnext,hhead',hslots'⟩ := hhead ▸
        Sequencer.put_alone hslots (dp.decompress zbytes zsize)
      have taken := sequenced.tail (.take rfl (asks k (Nat.lt_succ_self k)) hnext)
      have htake : blocks.take (k+1) = blocks.take k ++ [dp.decompress zbytes zsize] := by
        rw [hdec,hb,List.take_add_one,List.getElem?_eq_getElem hk]
        rfl
      rw [htake]
      exact ⟨rest',_,hrest',hhead',hslots',taken⟩

end

theorem cursor_stops {c : Cursor Feed} (hs : c.source.stop = .blocked) (op : GetOp) :
    (∀ e, cursor feedSource op c = .error (.error e) → ¬ e.IsDirect) ∧
      ∀ bs c', cursor feedSource op c = .ok (bs,c') → c'.source.stop = .blocked := by
  have hfetch : ∀ f g : Feed, f = g ∧ f.stop = .blocked →
      Excused (fun _ => False) (fun f g => f = g ∧ f.stop = .blocked)
        (fun e e' => e = e' ∧ ∀ x, e = .error x → ¬ x.IsDirect)
        (feedSource.fetch f) (feedSource.fetch g) := by
    rintro ⟨blocks,stop⟩ _ ⟨rfl,rfl⟩
    cases blocks with
    | nil => exact .inr ⟨rfl,nofun⟩
    | cons b blocks => exact .inr ⟨rfl,rfl,rfl⟩
  have hboth := (cursor_alongside (B := fun _ => False)
    (E := fun e e' => e = e' ∧ ∀ x, e = .error x → ¬ x.IsDirect)
    ⟨rfl,fun x hx => by cases hx; exact id⟩ hfetch op c c ⟨rfl,rfl,hs⟩).resolve_left
      fun ⟨_,_,hb⟩ => hb
  refine ⟨fun e he => ?_,fun bs c' hc => ?_⟩
  · rw [he] at hboth
    exact hboth.2 e rfl
  · rw [hc] at hboth
    exact hboth.2.2.2

theorem demand_direct {α : Type} {p : Reader α} (hp : p.Asks GetOp.Sized) {blocks : List Block}
    (hne : ∀ b ∈ blocks.map Subtype.val, b ≠ []) :
    (∃ msg, demand p blocks = .error (.error (.direct msg))) ↔
      p.FailsAt (FitsAt (Boundary (blocks.map Subtype.val))) GetOp.behind ReadError.IsDirect
        channel 0 (blocks.map Subtype.val).flatten := by
  have hstart : Standing (Boundary (blocks.map Subtype.val)) 0
      (Cursor.start ⟨blocks,.blocked⟩) (blocks.map Subtype.val).flatten :=
    standing_start (f := ⟨blocks,.blocked⟩) hne
  have hstep : ∀ x op c s, GetOp.Sized op →
      Standing (Boundary (blocks.map Subtype.val)) x c s ∧ c.source.stop = .blocked →
      Permitted (FitsAt (Boundary (blocks.map Subtype.val)) x op)
        (fun c s => Standing (Boundary (blocks.map Subtype.val)) (GetOp.behind x op) c s ∧
          c.source.stop = .blocked) (cursor feedSource op c) (channel op s) := by
    rintro x op c s hop ⟨hst,hs⟩
    have hperm := cursor_permitted x op c s hop hst
    have hkeeps := (cursor_stops hs op).2
    refine ⟨fun bs c' hr => ?_,hperm.fit,fun hfits bs t ht => ?_⟩
    · obtain ⟨t,ht,hst'⟩ := hperm.sound bs c' hr
      exact ⟨t,ht,hst',hkeeps bs c' hr⟩
    · obtain ⟨c',hr,hst'⟩ := hperm.complete hfits bs t ht
      exact ⟨c',hr,hst',hkeeps bs c' hr⟩
  have hfails := run_failsAt (E := ReadError.IsDirect) hstep
    (fun x op c s e ⟨_,hs⟩ => (cursor_stops hs op).1 e) hp ⟨hstart,rfl⟩
  rw [demand_eq,readFeed]
  refine Iff.trans ?_ hfails
  constructor
  · rintro ⟨msg,h⟩
    cases hr : p.run (cursor feedSource) (Cursor.start ⟨blocks,.blocked⟩) with
    | ok x => rw [hr] at h; cases h
    | error e =>
      rw [hr] at h
      cases h
      exact ⟨.direct msg,trivial,rfl⟩
  · rintro ⟨e,he,hr⟩
    cases e with
    | cleanup msg => exact he.elim
    | direct msg => exact ⟨msg,by rw [hr]; rfl⟩

/-- The blocks of a stream in front of the first that does not decompress. -/
def readableBlocks (dp : Decompressor) (stream : Bytes) : List Bytes :=
  ((decompressed dp stream).takeWhile fun b => !b.1.isEmpty).map Subtype.val

/-- The lengths and counts in a stream that is read as an object within `d` scopes, some of
them or all, in their order. -/
def Announced (dp : Decompressor) (d : Nat) (stream : Bytes) (cs : List Claim) : Prop :=
  Announces (Boundary (readableBlocks dp stream)) [.object d] [] 0
    (readableBlocks dp stream).flatten cs

section
variable {dp : Decompressor} {memory : Allocator} {maxDepth : Nat} {stream : Bytes}

/-- The deserializer throws past its reader exactly if something is announced that is over a
limit or finds no memory. -/
theorem demand_announced :
    (∃ msg, demand (streamReadWithin memory maxDepth) ((streamSource dp).feed stream).blocks =
        .error (.error (.direct msg))) ↔
      ¬ (maxDepth ≠ 0 ∧ ∀ cs, Announced dp maxDepth stream cs →
        Granted (Claim.denied memory) [] cs) := by
  by_cases hz : maxDepth = 0
  · subst hz
    exact ⟨fun _ h => h.1 rfl,fun _ => ⟨_,rfl⟩⟩
  have hblocks := (feed_decompressed dp stream).1
  have hne : ∀ b ∈ readableBlocks dp stream, b ≠ [] := by
    intro b hb
    obtain ⟨x,hx,rfl⟩ := List.mem_map.mp hb
    have hall := List.all_takeWhile (p := fun b : Block => !b.1.isEmpty)
      (l := decompressed dp stream)
    simpa using List.all_eq_true.mp hall x hx
  rw [hblocks,demand_direct (streamReadWithin_sized memory maxDepth) hne,streamReadWithin,
    if_neg hz,settle_failsAt (Claim.denied_direct memory) (claimingStreamRead_careful maxDepth)]
  have hmakes := claimingStreamRead_foretells (Boundary (readableBlocks dp stream)) maxDepth 0
    (readableBlocks dp stream).flatten
  constructor
  · rintro ⟨cs,hm,hg⟩ ⟨_,h⟩
    exact hg (h cs ((hmakes cs).mp hm))
  · intro h
    by_contra hnone
    refine h ⟨hz,fun cs hcs => ?_⟩
    by_contra hg
    exact hnone ⟨cs,(hmakes cs).mpr hcs,hg⟩

end

theorem direct_escapes {α : Type} {dp : Decompressor} {p : Reader α} (resets : Bool)
    {stream : Bytes} {msg : String}
    (h : demand p ((streamSource dp).feed stream).blocks = .error (.error (.direct msg))) :
    ∃ s, ReaderRuns dp p resets stream s ∧ s.phase = .escaped msg := by
  classical
  -- the first number of blocks that is enough
  have hex : ∃ k, demand p (((streamSource dp).feed stream).blocks.take k) ≠
      .error .blocked :=
    ⟨((streamSource dp).feed stream).blocks.length,by rw [List.take_length,h]; nofun⟩
  have hfirst := Nat.find_spec hex
  have hbefore : ∀ j < Nat.find hex, demand p
      (((streamSource dp).feed stream).blocks.take j) = .error .blocked := fun j hj =>
    Classical.not_not.mp (Nat.find_min hex hj)
  have hle : Nat.find hex ≤ ((streamSource dp).feed stream).blocks.length :=
    Nat.find_min' hex (by rw [List.take_length,h]; nofun)
  have henough := demand_enough hfirst (((streamSource dp).feed stream).blocks.drop (Nat.find hex))
  rw [List.take_append_drop,h] at henough
  obtain ⟨rest,q,_,_,_,run⟩ := deliver_each resets (Nat.find hex) hle hbefore
  exact ⟨_,run.tail (.throw rfl henough.symm),rfl⟩

theorem escaped_direct {α : Type} {dp : Decompressor} {p : Reader α} (hp : p.Asks GetOp.Sized)
    {resets : Bool} {stream : Bytes} {s : ReaderPipeline α}
    (run : ReaderRuns dp p resets stream s) {msg : String} (h : s.phase = .escaped msg) :
    demand p ((streamSource dp).feed stream).blocks = .error (.error (.direct msg)) := by
  have hplaced := (ReaderInv.run run).placed
  rw [Placed,h] at hplaced
  have hfeed := readFeed_handed hp run (by rw [hplaced]; intro hb; cases hb)
    fun _ => by rw [hplaced]; intro hb; cases hb
  have hstop := readFeed_stop p ((streamSource dp).feed stream).blocks
    ((streamSource dp).feed stream).stop
  obtain ⟨text,htext⟩ := (feed_decompressed dp stream).2
  rw [show (⟨((streamSource dp).feed stream).blocks,((streamSource dp).feed stream).stop⟩ :
    Feed) = (streamSource dp).feed stream from rfl,hfeed,hplaced,htext] at hstop
  cases hd : demand p ((streamSource dp).feed stream).blocks with
  | ok a => rw [hd] at hstop; cases hstop
  | error e =>
    rw [hd] at hstop
    cases e with
    | blocked => cases hstop
    | error e => exact hstop.symm

theorem readerExits_iff (dp : Decompressor) (memory : Allocator) (resets : Bool) (maxDepth : Nat)
    (stream : Bytes) : ReaderExits dp memory resets maxDepth stream ↔
      maxDepth ≠ 0 ∧ ∀ cs, Announced dp maxDepth stream cs →
        Granted (Claim.denied memory) [] cs := by
  constructor
  · intro h
    by_contra hnot
    obtain ⟨msg,hdirect⟩ := demand_announced.mpr hnot
    obtain ⟨s,run,hphase⟩ := direct_escapes resets hdirect
    exact h.not_escaped run msg hphase
  · intro h s run exited
    have hp := (ReaderInv.run run).placed
    cases hphase : s.phase with
    | returned a => rw [Placed,hphase] at hp; exact ⟨trivial,hp.2⟩
    | thrown cause => rw [Placed,hphase] at hp; exact ⟨trivial,hp.2⟩
    | escaped msg =>
      have hdirect := escaped_direct (streamReadWithin_sized memory maxDepth) run hphase
      exact absurd h (demand_announced.mp ⟨msg,hdirect⟩)
    | _ => rw [hphase] at exited; cases exited

/-- One block with the header of a raw vector of 2^60 bytes, however much memory there is. -/
example (dp : Decompressor) (memory : Allocator) (resets : Bool) (stream : Bytes)
    (h : readableBlocks dp stream = [rawHeader64 :: toBytes 8 (2 ^ 60)]) :
    ¬ ReaderExits dp memory resets 1 stream := by
  rw [readerExits_iff]
  rintro ⟨_,hall⟩
  have hannounced : Announced dp 1 stream [.vector .raw (2 ^ 60)] := by
    rw [Announced,h]
    have hheader : ObjectHeader .raw (2 ^ 60) 0 (rawHeader64 :: toBytes 8 (2 ^ 60)) :=
      .plain (.wide (by decide) (by decide)) nofun
    refine .vector hheader nofun nofun ?_ (.room .nothing)
    rintro _ ⟨front,hfront,rfl⟩ hpos
    rcases List.prefix_cons_iff.mp hfront with rfl | ⟨rest,rfl,hrest⟩
    · exact absurd hpos (Nat.lt_irrefl 0)
    · simp
  have hgranted := hall _ hannounced
  simp [Granted,Claim.denied,Claim.overLimit,maxRCompatibleVectorLength] at hgranted

def namedUninitialized (name : Bytes) : Value := .list [.uninitialized] [(name,.nil)]

theorem Emits.before {a r : WriteRun} {bs : Bytes} (h : Emits a bs) :
    (a ++ r).error = r.error ∧ pushedBytes (a ++ r).pushed = bs ++ pushedBytes r.pushed := by
  rw [WriteRun.append_ok h.1]
  exact ⟨rfl,by simp [h.2.1]⟩

theorem namedUninitialized_write (name : Bytes) (h : name.length ≤ maxRCompatibleStringLength) :
    (streamWrite 2 (namedUninitialized name)).error =
        some "qdata::writable is not initialized" ∧
      name.length ≤ (pushedBytes (streamWrite 2 (namedUninitialized name)).pushed).length := by
  obtain ⟨header,hname,_⟩ := writeText_emits h
  have hvalue : Emits (writeObject 1 .nil) [nilHeader] := ⟨rfl,rfl,rfl⟩
  have hattrs : Emits (writeAttributes 1 [(name,.nil)]) ((header ++ name) ++ ([nilHeader] ++ [])) :=
    hname.append (hvalue.append emits_nothing)
  have hlist : Emits (beginListVector 1 1) [0xE1,0x21] := ⟨rfl,rfl,rfl⟩
  have hscope : Emits (enterObjectScope 2) [] := ⟨rfl,rfl,rfl⟩
  have hdepth : Emits (checkedMaxNestingDepth 2) [] := ⟨rfl,rfl,rfl⟩
  have hfail : (writeValues 1 [.uninitialized]).error =
    some "qdata::writable is not initialized" := rfl
  have hunfold : writeObject 2 (namedUninitialized name) =
      enterObjectScope 2 ++ (beginListVector 1 1 ++
        (writeAttributes 1 [(name,.nil)] ++ writeValues 1 [.uninitialized])) := by
    rw [namedUninitialized,writeObject]
    rfl
  have hobject : (writeObject 2 (namedUninitialized name)).error =
      some "qdata::writable is not initialized" := by
    rw [hunfold,hscope.before.1,hlist.before.1,hattrs.before.1,hfail]
  rw [streamWrite,hdepth.before.1,hdepth.before.2,WriteRun.append_failed hobject]
  refine ⟨hobject,?_⟩
  rw [hunfold,hscope.before.2,hlist.before.2,hattrs.before.2]
  simp only [List.length_append]
  omega

end QData
