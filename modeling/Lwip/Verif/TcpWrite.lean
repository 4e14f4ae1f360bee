import Lwip.Verif.TcpWritePhases

/-!
# Writing to a connection

What a whole call of `tcp_write` does, put together from its phases: a call that fails leaves the
queues as they are, and a call that succeeds queues exactly the block of data, with contiguous
sequence numbers and in segments that are not too large.
-/

namespace Lwip

open Outcome List

variable {unsent : List TcpSeg} {l start : WriteLocals} {seg : TcpSeg}

/-! ## Outcomes of a call -/

/-- The flag `PSH` on the last segment changes neither data nor sequence numbers. -/
theorem map_setPshLast {α : Type} (f : TcpSeg → α) (queue : List TcpSeg)
    (same : ∀ seg : TcpSeg, f { seg with tcphdr := { seg.tcphdr with
      flags := { seg.tcphdr.flags with psh := true } } } = f seg) :
    (setPshLast queue).map f = queue.map f := by
  induction queue with
  | nil => rfl
  | cons seg next ih =>
    cases next with
    | nil => simp [setPshLast, same]
    | cons next more =>
      rw [setPshLast, map_cons, map_cons, ih]

/-- What a successful call makes of the queue `unsent`, before the flag `PSH`. -/
structure Written (env : TcpEnv) (pcb : TcpPcb) (w : WriteArgs) (l : WriteLocals)
    (unsent : List TcpSeg) : Prop where
  /-- The last segment is extended and new ones come behind it. -/
  shape : (pcb.unsent = [] ∧ pcb.unsentOversize = 0 ∧ unsent = l.queue ∧
        ∃ start : WriteLocals, start.pos = 0 ∧ start.concatP = [] ∧ start.oversize = 0 ∧
          start.queuelen = pcb.sndQueuelen ∧ WriteQueued env pcb w start l) ∨
      ∃ lastUnsent linked start, pcb.unsent.getLast? = some lastUnsent ∧
        unsent = pcb.unsent.dropLast ++ linked :: l.queue ∧
        TailReady env pcb w lastUnsent start ∧ TailCommitted env pcb w lastUnsent start linked ∧
        WriteQueued env pcb w start l
  pos : l.pos = w.len
  positive : l.queue ≠ [] → 0 < mssLocal pcb

/-- The outcome of `tcp_write`. -/
inductive WriteOutcome (env : TcpEnv) (pcb : TcpPcb) (w : WriteArgs) : Err → TcpPcb → Prop
  | refused (err : Err) (unsent : List TcpSeg) (tfNaglememerr : Bool) (failed : err ≠ .ok)
      (same : unsent = pcb.unsent ∨ ∃ lastUnsent left, pcb.unsent.getLast? = some lastUnsent ∧
        unsent = pcb.unsent.dropLast ++ [{ lastUnsent with oversizeLeft := left }]) :
      WriteOutcome env pcb w err { pcb with unsent := unsent, tfNaglememerr := tfNaglememerr }
  | written (l : WriteLocals) (unsent : List TcpSeg) (psh : Bool) (data : w.arg ≠ 0)
      (room : w.len = 0 ∨ (w.len ≤ pcb.sndBuf ∧ pcb.sndQueuelen < tcpSndQueuelen))
      (written : Written env pcb w l unsent) :
      WriteOutcome env pcb w .ok { pcb with
        unsent := if psh then setPshLast unsent else unsent
        unsentOversize := l.oversize
        sndLbb := pcb.sndLbb + UInt32.ofNat w.len
        sndBuf := toU16 (pcb.sndBuf - w.len)
        sndQueuelen := l.queuelen }

section Outcome

variable {env : TcpEnv} {pcb : TcpPcb} {w : WriteArgs}

theorem tcpWriteChecks_spec (pcb : TcpPcb) (len : Nat) :
    Ensures AnyError (tcpWriteChecks pcb len) fun result =>
      (result.1 ≠ .ok ∧ ∃ tfNaglememerr, result.2 = { pcb with tfNaglememerr := tfNaglememerr }) ∨
        (result = (.ok, pcb) ∧
          (len = 0 ∨ (len ≤ pcb.sndBuf ∧ pcb.sndQueuelen < tcpSndQueuelen))) := by
  have unchanged : ∃ tfNaglememerr, pcb = { pcb with tfNaglememerr := tfNaglememerr } :=
    ⟨pcb.tfNaglememerr, rfl⟩
  unfold tcpWriteChecks
  split
  · exact .ok (Or.inl ⟨by simp, unchanged⟩)
  split
  · rename_i empty
    exact .ok (Or.inr ⟨rfl, Or.inl empty⟩)
  · split
    · exact .ok (Or.inl ⟨by simp, true, rfl⟩)
    · rename_i fits
      split
      · exact .ok (Or.inl ⟨by simp, true, rfl⟩)
      · rename_i notFull
        have room : len = 0 ∨ (len ≤ pcb.sndBuf ∧ pcb.sndQueuelen < tcpSndQueuelen) :=
          Or.inr ⟨Nat.le_of_not_lt fits, Nat.lt_of_not_le fun full => notFull (Or.inl full)⟩
        split
        · exact ensures_assert (fun _ => trivial) fun _ => .ok (Or.inr ⟨rfl, room⟩)
        · exact ensures_assert (fun _ => trivial) fun _ => .ok (Or.inr ⟨rfl, room⟩)

theorem tcpWriteMemerr_outcome
    (same : unsent = pcb.unsent ∨ ∃ lastUnsent left, pcb.unsent.getLast? = some lastUnsent ∧
      unsent = pcb.unsent.dropLast ++ [{ lastUnsent with oversizeLeft := left }]) :
    Ensures AnyError (tcpWriteMemerr { pcb with unsent := unsent }) fun result =>
      WriteOutcome env pcb w result.1 result.2 := by
  apply ensures_pass trivial
  exact .ok (.refused .mem unsent true (by simp) same)

theorem tcpWriteFinish_outcome (data : w.arg ≠ 0)
    (room : w.len = 0 ∨ (w.len ≤ pcb.sndBuf ∧ pcb.sndQueuelen < tcpSndQueuelen))
    (written : Written env pcb w l unsent) :
    Ensures AnyError (tcpWriteFinish pcb w l unsent) fun result =>
      WriteOutcome env pcb w result.1 result.2 := by
  apply ensures_pass trivial
  apply Ensures.ok
  have outcome := WriteOutcome.written l unsent (l.seg ∧ !w.more) data room written
  simpa using outcome

/-- A loop that ends with success has room for data in its segments. -/
theorem mssLocal_pos_of_queue {fuel : Nat}
    (done : (tcpWriteSegments env pcb w fuel start).erase = .ok (some l)) (fresh : start.queue = [])
    (some' : l.queue ≠ []) : 0 < mssLocal pcb := by
  apply Nat.pos_of_ne_zero
  intro none'
  cases fuel with
  | zero => cases done
  | succ fuel =>
    by_cases open' : start.pos < w.len
    · exact tcpWriteSegments_stuck none' open' done
    · rw [tcpWriteSegments, if_neg open'] at done
      cases done
      exact some' fresh

/-- The loop has done nothing at its start. -/
theorem WriteQueued.refl (fresh : start.queue = []) : WriteQueued env pcb w start start := by
  constructor
  · rw [fresh]
    trivial
  · rw [fresh]
    rfl
  · rw [fresh]
    rfl
  · exact .inl fresh
  · exact ⟨rfl, rfl, rfl⟩
  · exact fun _ => rfl

/-- The loop of phase 3 from its start on. -/
theorem tcpWriteSegments_queued (fresh : start.queue = []) (inside : start.pos ≤ w.len)
    (small : w.len ≤ 65535) (short : start.pos = w.len ∨ start.queuelen ≤ tcpSndQueuelen)
    (fuel : Nat) :
    Ensures AnyError (tcpWriteSegments env pcb w fuel start).erase fun result =>
      ∀ l ∈ result, WriteQueued env pcb w start l ∧ l.pos = w.len := by
  cases short with
  | inl all =>
    cases fuel with
    | zero => exact .error trivial
    | succ fuel =>
      rw [tcpWriteSegments, if_neg (by omega)]
      apply Ensures.ok
      intro l member
      rw [← Option.mem_some_iff.mp member]
      exact ⟨WriteQueued.refl fresh, all⟩
  | inr short => exact tcpWriteSegments_spec short small (WriteQueued.refl fresh) inside

/-- `tcp_write` with nothing on the queue. -/
theorem tcpWriteNew_outcome (data : w.arg ≠ 0) (small : w.len ≤ 65535)
    (room : w.len = 0 ∨ (w.len ≤ pcb.sndBuf ∧ pcb.sndQueuelen < tcpSndQueuelen))
    (empty : pcb.unsent = []) :
    Ensures AnyError (tcpWriteNew env pcb w).erase fun result =>
      WriteOutcome env pcb w result.1 result.2 := by
  unfold tcpWriteNew
  simp only [Logged.erase_bind, Logged.erase_lift]
  apply ensures_assert (fun _ => trivial)
  intro noOversize
  let start : WriteLocals :=
    { pos := 0, queuelen := pcb.sndQueuelen, oversize := 0, oversizeUsed := 0, concatP := []
      extendlen := 0, queue := [], seg := false, allocs := 0 }
  have short : start.pos = w.len ∨ start.queuelen ≤ tcpSndQueuelen := by
    cases room with
    | inl nothing => exact .inl nothing.symm
    | inr some' => exact .inr (Nat.le_of_lt some'.2)
  have spec : Ensures AnyError (tcpWriteSegments env pcb w tcpWriteFuel start).erase _ :=
    tcpWriteSegments_queued rfl (Nat.zero_le _) small short tcpWriteFuel
  cases done : (tcpWriteSegments env pcb w tcpWriteFuel start).erase with
  | error message => exact .error trivial
  | ok result =>
    rw [ok_bind]
    cases result with
    | none =>
      rw [Logged.erase_lift]
      exact tcpWriteMemerr_outcome (Or.inl rfl)
    | some l =>
      rw [Logged.erase_lift]
      obtain ⟨queued, position⟩ := spec.of_ok done l rfl
      apply tcpWriteFinish_outcome data room
      constructor
      · exact .inl ⟨empty, noOversize, rfl, start, rfl, rfl, rfl, rfl, queued⟩
      · exact position
      · exact mssLocal_pos_of_queue done rfl

/-- `tcp_write` with something on the queue. -/
theorem tcpWriteExtend_outcome {lastUnsent : TcpSeg} (data : w.arg ≠ 0) (small : w.len ≤ 65535)
    (room : w.len = 0 ∨ (w.len ≤ pcb.sndBuf ∧ pcb.sndQueuelen < tcpSndQueuelen))
    (last : pcb.unsent.getLast? = some lastUnsent) (some' : lastUnsent.p ≠ [])
    (bounded : lastUnsent.len + w.len < 65536 ∨ mssLocal pcb < 65536) :
    Ensures AnyError (tcpWriteExtend env pcb w lastUnsent).erase fun result =>
      WriteOutcome env pcb w result.1 result.2 := by
  unfold tcpWriteExtend
  rw [Logged.erase_bind]
  apply (tcpWriteTail_spec lastUnsent small).bind
  intro result prepared
  obtain ⟨tail, lastUnsent'⟩ := result
  obtain ⟨⟨left, same⟩, ready⟩ := prepared
  dsimp only at same ready ⊢
  have failed : pcb.unsent.dropLast ++ [lastUnsent'] = pcb.unsent ∨
      ∃ lastUnsent left, pcb.unsent.getLast? = some lastUnsent ∧
        pcb.unsent.dropLast ++ [lastUnsent'] =
          pcb.unsent.dropLast ++ [{ lastUnsent with oversizeLeft := left }] :=
    Or.inr ⟨lastUnsent, left, last, by rw [same]⟩
  cases tail with
  | none =>
    simp only [Logged.erase_lift]
    exact tcpWriteMemerr_outcome failed
  | some start =>
    have start' := ready start rfl
    have inside := start'.inside
    have short : start.pos = w.len ∨ start.queuelen ≤ tcpSndQueuelen := by
      cases room with
      | inl nothing => exact .inl (by omega)
      | inr free =>
        right
        cases start'.queuelen with
        | inl same =>
          rw [same.2]
          exact Nat.le_of_lt free.2
        | inr counted =>
          have queue := free.2
          unfold tcpSndQueuelen at queue ⊢
          rw [counted.2, u16_of_lt (by omega)]
          omega
    have spec : Ensures AnyError (tcpWriteSegments env pcb w tcpWriteFuel start).erase _ :=
      tcpWriteSegments_queued start'.queue inside small short tcpWriteFuel
    simp only [Logged.erase_bind]
    cases done : (tcpWriteSegments env pcb w tcpWriteFuel start).erase with
    | error message => exact .error trivial
    | ok result =>
      rw [ok_bind]
      cases result with
      | none =>
        simp only [Logged.erase_lift]
        exact tcpWriteMemerr_outcome failed
      | some l =>
        simp only [Logged.erase_bind, Logged.erase_lift]
        obtain ⟨queued, position⟩ := spec.of_ok done l rfl
        obtain ⟨used, concat, extend⟩ := queued.prepared
        have starts := start'.pos
        have fits := start'.fits
        have filled : Ensures AnyError (tcpCommitOversize env w start lastUnsent') _ :=
          tcpCommitOversize_spec pcb same (by omega) (by omega) (by omega)
        have sameOversize : tcpCommitOversize env w l lastUnsent' =
            tcpCommitOversize env w start lastUnsent' := by
          unfold tcpCommitOversize
          rw [used]
        have sameConcat : ∀ seg, tcpCommitConcat l seg = tcpCommitConcat start seg := by
          intro seg
          unfold tcpCommitConcat
          rw [concat, extend]
        rw [sameOversize]
        apply filled.bind
        intro filled' committed
        rw [sameConcat]
        apply (tcpCommitConcat_spec start' some' (by omega) committed).bind
        intro linked committed'
        apply tcpWriteFinish_outcome data room
        constructor
        · exact .inr ⟨lastUnsent, linked, start, last, rfl, start', committed', queued⟩
        · exact position
        · exact mssLocal_pos_of_queue done start'.queue

theorem tcpWrite_outcome (small : w.len ≤ 65535) (some' : ∀ seg ∈ pcb.unsent, seg.p ≠ [])
    (bounded : ∀ seg ∈ pcb.unsent, seg.len + w.len < 65536 ∨ mssLocal pcb < 65536) :
    Ensures AnyError (tcpWrite env pcb w) fun result =>
      WriteOutcome env pcb w result.1 result.2 := by
  unfold tcpWrite tcpWriteLogged
  split
  · exact .ok (.refused .arg pcb.unsent pcb.tfNaglememerr (by simp) (Or.inl rfl))
  rename_i data
  rw [Logged.erase_bind, Logged.erase_lift]
  apply (tcpWriteChecks_spec pcb w.len).bind
  intro result checked
  obtain ⟨err, pcb'⟩ := result
  cases checked with
  | inl refused =>
    obtain ⟨failed, tfNaglememerr, same⟩ := refused
    dsimp only at failed same ⊢
    rw [if_pos failed, same]
    exact .ok (.refused err pcb.unsent tfNaglememerr failed (Or.inl rfl))
  | inr passed =>
    obtain ⟨same, room⟩ := passed
    cases same
    dsimp only
    cases last : pcb.unsent.getLast? with
    | some lastUnsent =>
      have member := mem_of_getLast? last
      exact tcpWriteExtend_outcome data small room last (some' _ member) (bounded _ member)
    | none =>
      exact tcpWriteNew_outcome data small room (getLast?_eq_none_iff.mp last)

end Outcome

/-! ## Data and sequence numbers -/

/-- The bytes that a segment carries behind its header and its options. -/
def segBytes (seg : TcpSeg) : List UInt8 :=
  seg.p.bytes.drop (tcpHlen + lwipTcpOptLength seg.optsMss)

/-- The bytes that the segments of a queue carry. -/
def queueBytes (queue : List TcpSeg) : List UInt8 := (queue.map segBytes).flatten

/-- Sequence number and length of a segment. -/
def segSpan (seg : TcpSeg) : UInt32 × Nat := (seg.tcphdr.seqno, tcpTcplen seg)

/-- Sequence numbers that follow one another from a start to an end. -/
def Contiguous (start : UInt32) : List (UInt32 × Nat) → UInt32 → Prop
  | [], final => start = final
  | span :: more, final => span.1 = start ∧ Contiguous (start + UInt32.ofNat span.2) more final

theorem contiguous_append {start final : UInt32} {front back : List (UInt32 × Nat)} :
    Contiguous start (front ++ back) final ↔
      ∃ middle, Contiguous start front middle ∧ Contiguous middle back final := by
  induction front generalizing start with
  | nil => simp [Contiguous]
  | cons span more ih =>
    simp only [cons_append, Contiguous, ih]
    constructor
    · intro given
      obtain ⟨here, middle, first, second⟩ := given
      exact ⟨middle, ⟨here, first⟩, second⟩
    · intro given
      obtain ⟨middle, ⟨here, first⟩, second⟩ := given
      exact ⟨here, middle, first, second⟩

theorem SegDenotes.segBytes_eq {data : List UInt8} (denotes : SegDenotes seg data) :
    segBytes seg = data := by
  obtain ⟨front, frontLen, whole, _⟩ := denotes
  rw [segBytes, whole.bytes, drop_left' frontLen]

section New

variable {env : TcpEnv} {pcb : TcpPcb} {w : WriteArgs} {pos : Nat} {queue : List TcpSeg}

/-- New segments carry the data from their position on. -/
theorem NewSegs.bytes (segs : NewSegs env pcb w pos queue) (inMemory : w.inMemory env)
    (bound : mssLocal pcb ≤ maxPayload) :
    queueBytes queue = writeData env w pos (segLens queue) := by
  induction queue generalizing pos with
  | nil => exact (writeData_zero env w pos).symm
  | cons seg more ih =>
    have first := (segs.1.data inMemory bound).segBytes_eq
    have rest := ih segs.2
    show segBytes seg ++ queueBytes more = writeData env w pos (seg.len + segLens more)
    rw [first, rest, writeData_add]

theorem NewSegs.contiguous (segs : NewSegs env pcb w pos queue) :
    Contiguous (pcb.sndLbb + UInt32.ofNat pos) (queue.map segSpan)
      (pcb.sndLbb + UInt32.ofNat (pos + segLens queue)) := by
  induction queue generalizing pos with
  | nil => rfl
  | cons seg more ih =>
    have first := segs.1
    have tcplen : tcpTcplen seg = seg.len := by
      rw [tcpTcplen, first.tcphdr]
      rfl
    have rest := ih segs.2
    refine ⟨by rw [segSpan, first.tcphdr], ?_⟩
    show Contiguous (pcb.sndLbb + UInt32.ofNat pos + UInt32.ofNat (tcpTcplen seg)) _
      (pcb.sndLbb + UInt32.ofNat (pos + (seg.len + segLens more)))
    rw [tcplen, UInt32.add_assoc, ← UInt32.ofNat_add, ← Nat.add_assoc]
    exact rest

/-- New segments denote the data they carry, and none is larger than a segment may be. -/
theorem NewSegs.mem (segs : NewSegs env pcb w pos queue) (member : seg ∈ queue) :
    ∃ pos, NewSeg env pcb w pos seg := by
  induction queue generalizing pos with
  | nil => cases member
  | cons first more ih =>
    cases member with
    | head => exact ⟨pos, segs.1⟩
    | tail _ deeper => exact ih segs.2 deeper

end New

/-- The segments of a queue behind the flag `PSH`. -/
theorem mem_setPshLast {queue : List TcpSeg} (member : seg ∈ setPshLast queue) :
    seg ∈ queue ∨ ∃ last, queue.getLast? = some last ∧ seg = { last with tcphdr :=
      { last.tcphdr with flags := { last.tcphdr.flags with psh := true } } } := by
  induction queue with
  | nil => cases member
  | cons first next ih =>
    cases next with
    | nil => exact .inr ⟨first, rfl, mem_singleton.mp member⟩
    | cons second more =>
      cases mem_cons.mp member with
      | inl here => exact .inl (here ▸ mem_cons_self)
      | inr deeper =>
        cases ih deeper with
        | inl same => exact .inl (mem_cons_of_mem _ same)
        | inr changed =>
          obtain ⟨last, ends, same⟩ := changed
          exact .inr ⟨last, by rw [getLast?_cons_cons]; exact ends, same⟩

/-- A control block and a block of data as `tcp_write` may find them: segments that carry as many
bytes as their length says, unused bytes at the end of the last pbuf, and data in the memory of
the application. -/
structure Writable (env : TcpEnv) (pcb : TcpPcb) (w : WriteArgs) : Prop where
  len : w.len ≤ 65535
  inMemory : w.inMemory env
  /-- Segments have a total length of 16 bits. -/
  mss : pcb.mss ≤ maxPayload
  segs : ∀ seg ∈ pcb.unsent, SegDenotes seg (segBytes seg)
  /-- The last pbuf has the unused bytes. -/
  tail : ∀ lastUnsent, pcb.unsent.getLast? = some lastUnsent → TailGood env pcb lastUnsent

theorem mssLocal_le (pcb : TcpPcb) : mssLocal pcb ≤ pcb.mss := by
  unfold mssLocal
  dsimp only
  split <;> omega

/-- What is to hold of the queue `unsent` behind a call that succeeds, apart from the flag
`PSH`. -/
structure QueuedBlock (env : TcpEnv) (pcb : TcpPcb) (w : WriteArgs) (unsent : List TcpSeg) :
    Prop where
  bytes : queueBytes unsent = queueBytes pcb.unsent ++ writeData env w 0 w.len
  /-- Sequence numbers stay contiguous, up to a number that is larger by the length. -/
  contiguous : ∀ start, Contiguous start (pcb.unsent.map segSpan) pcb.sndLbb →
    Contiguous start (unsent.map segSpan) (pcb.sndLbb + UInt32.ofNat w.len)
  segs : ∀ seg ∈ unsent, SegDenotes seg (segBytes seg)
  /-- What is new or extended is not too large. -/
  sizes : ∀ seg ∈ unsent, seg ∈ pcb.unsent ∨
    seg.len + lwipTcpOptLength seg.optsMss ≤ pcb.mss

/-- The queue behind a call holds the block, and its last segment is not too large. -/
theorem Written.queuedBlock {env : TcpEnv} {pcb : TcpPcb} {w : WriteArgs}
    (writable : Writable env pcb w) (written : Written env pcb w l unsent) :
    QueuedBlock env pcb w unsent ∧ ∀ last, unsent.getLast? = some last →
      last.len + lwipTcpOptLength last.optsMss ≤ pcb.mss := by
  have inMemory := writable.inMemory
  have bound : mssLocal pcb ≤ maxPayload := Nat.le_trans (mssLocal_le pcb) writable.mss
  have local' := mssLocal_le pcb
  have position := written.pos
  have new : ∀ {pos : Nat} {seg : TcpSeg}, NewSeg env pcb w pos seg →
      SegDenotes seg (segBytes seg) ∧ seg.len + lwipTcpOptLength seg.optsMss ≤ pcb.mss := by
    intro pos seg fresh
    have denotes := fresh.data inMemory bound
    refine ⟨?_, ?_⟩
    · rw [denotes.segBytes_eq]
      exact denotes
    · have len := fresh.len
      rw [fresh.optsMss]
      show seg.len + 0 ≤ pcb.mss
      omega
  cases written.shape with
  | inl nothing =>
    obtain ⟨empty, _, same, start, atZero, _, _, _, queued⟩ := nothing
    have segs := queued.segs
    have lens : segLens l.queue = w.len := by
      have := queued.pos
      omega
    rw [atZero] at segs
    rw [same]
    refine ⟨⟨?_, ?_, ?_, ?_⟩, ?_⟩
    · rw [segs.bytes inMemory bound, lens, empty]
      rfl
    · intro from' before
      rw [empty] at before
      have after := segs.contiguous
      rw [Nat.zero_add, lens, show UInt32.ofNat 0 = 0 from rfl, UInt32.add_zero] at after
      rw [show from' = pcb.sndLbb from before]
      exact after
    · intro seg member
      obtain ⟨_, fresh⟩ := segs.mem member
      exact (new fresh).1
    · intro seg member
      obtain ⟨_, fresh⟩ := segs.mem member
      exact .inr (new fresh).2
    · intro seg ends
      obtain ⟨_, fresh⟩ := segs.mem (mem_of_getLast? ends)
      exact (new fresh).2
  | inr something =>
    obtain ⟨lastUnsent, linked, start, last, same, ready, committed, queued⟩ := something
    have segs := queued.segs
    have lens : start.pos + segLens l.queue = w.len := by
      have := queued.pos
      omega
    have parts := dropLast_append_getLast? lastUnsent (Option.mem_def.mpr last)
    have member := mem_of_getLast? last
    have extended := committed.data (segBytes lastUnsent) inMemory bound
      (writable.tail lastUnsent last) (writable.segs lastUnsent member)
    have linkedBytes := extended.segBytes_eq
    have linkedSize : linked.len + lwipTcpOptLength linked.optsMss ≤ pcb.mss := by
      have fits := ready.fits
      rw [committed.len, committed.optsMss]
      omega
    rw [same]
    refine ⟨⟨?_, ?_, ?_, ?_⟩, ?_⟩
    · have old : queueBytes pcb.unsent = queueBytes pcb.unsent.dropLast ++ segBytes lastUnsent := by
        rw [← parts]
        simp [queueBytes]
      have behind : queueBytes (pcb.unsent.dropLast ++ linked :: l.queue) =
          queueBytes pcb.unsent.dropLast ++ (segBytes linked ++ queueBytes l.queue) := by
        simp [queueBytes]
      rw [old, behind, linkedBytes, segs.bytes inMemory bound, ← lens, writeData_add, Nat.zero_add]
      simp only [append_assoc]
    · intro from' before
      rw [← parts, map_append, contiguous_append] at before
      obtain ⟨middle, front, here, ends⟩ := before
      rw [map_append, contiguous_append]
      refine ⟨middle, front, ?_⟩
      have span : segSpan linked = (lastUnsent.tcphdr.seqno, tcpTcplen lastUnsent + start.pos) := by
        rw [segSpan, tcpTcplen, tcpTcplen, committed.tcphdr, committed.len]
        congr 1
        omega
      rw [map_cons, span]
      refine ⟨here, ?_⟩
      have after := segs.contiguous
      rw [lens] at after
      have ends' : middle + UInt32.ofNat (tcpTcplen lastUnsent) = pcb.sndLbb := ends
      rw [UInt32.ofNat_add, ← UInt32.add_assoc, ends']
      exact after
    · intro seg among
      cases mem_append.mp among with
      | inl front => exact writable.segs seg (mem_of_mem_dropLast front)
      | inr back =>
        cases mem_cons.mp back with
        | inl here =>
          rw [here, linkedBytes]
          exact extended
        | inr deeper =>
          obtain ⟨_, fresh⟩ := segs.mem deeper
          exact (new fresh).1
    · intro seg among
      cases mem_append.mp among with
      | inl front => exact .inl (mem_of_mem_dropLast front)
      | inr back =>
        cases back with
        | head => exact .inr linkedSize
        | tail _ deeper =>
          obtain ⟨_, fresh⟩ := segs.mem deeper
          exact .inr (new fresh).2
    · intro seg ends
      rw [getLast?_append_of_ne_nil _ (by simp)] at ends
      cases mem_cons.mp (mem_of_getLast? ends) with
      | inl here =>
        rw [here]
        exact linkedSize
      | inr deeper =>
        obtain ⟨_, fresh⟩ := segs.mem deeper
        exact (new fresh).2

/-- The flag `PSH` on the last segment changes nothing about the block. -/
theorem QueuedBlock.setPshLast {env : TcpEnv} {pcb : TcpPcb} {w : WriteArgs}
    (block : QueuedBlock env pcb w unsent)
    (size : ∀ last, unsent.getLast? = some last → last.len + lwipTcpOptLength last.optsMss ≤
      pcb.mss) :
    QueuedBlock env pcb w (setPshLast unsent) := by
  constructor
  · rw [queueBytes, map_setPshLast segBytes unsent fun _ => rfl]
    exact block.bytes
  · rw [map_setPshLast segSpan unsent fun _ => rfl]
    exact block.contiguous
  · intro seg member
    cases mem_setPshLast member with
    | inl same => exact block.segs seg same
    | inr changed =>
      obtain ⟨last, ends, same⟩ := changed
      rw [same]
      exact block.segs last (mem_of_getLast? ends)
  · intro seg member
    cases mem_setPshLast member with
    | inl same => exact block.sizes seg same
    | inr changed =>
      obtain ⟨last, ends, same⟩ := changed
      rw [same]
      exact .inr (size last ends)

/-- A call of `tcp_write` that returns `ERR_OK` puts exactly the given block behind the data on
the queue `unsent`: the bytes of the segments are the old ones followed by the block, sequence
numbers stay contiguous and end at the new `snd_lbb`, and every segment that is new or extended
carries at most `mss` bytes with its options. -/
theorem tcpWrite_queues_block {env : TcpEnv} {pcb pcb' : TcpPcb} {w : WriteArgs}
    (writable : Writable env pcb w) (done : tcpWrite env pcb w = .ok (.ok, pcb')) :
    QueuedBlock env pcb w pcb'.unsent ∧ pcb'.sndLbb = pcb.sndLbb + UInt32.ofNat w.len := by
  have small : mssLocal pcb < 65536 := by
    have bound := Nat.le_trans (mssLocal_le pcb) writable.mss
    unfold maxPayload at bound
    omega
  have some' : ∀ seg ∈ pcb.unsent, seg.p ≠ [] := by
    intro seg member
    obtain ⟨_, _, whole, _⟩ := writable.segs seg member
    exact whole.nonempty
  have outcome : WriteOutcome env pcb w .ok pcb' :=
    (tcpWrite_outcome writable.len some' fun _ _ => .inr small).of_ok done
  cases outcome with
  | refused err unsent tfNaglememerr failed same => exact absurd rfl failed
  | written l unsent psh data room written =>
    obtain ⟨block, size⟩ := written.queuedBlock writable
    refine ⟨?_, rfl⟩
    split
    · exact block.setPshLast size
    · exact block

/-- A connection with three bytes to be sent and five unused bytes behind them. -/
def threeBytesPcb : TcpPcb :=
  { tcpAlloc 0 with
    state := .established, mss := 8, sndLbb := 103, sndWndMax := 8096, sndQueuelen := 1
    unsentOversize := 5
    unsent := [{
      p := [{ mem := List.replicate 56 0 ++ [1, 2, 3] ++ List.replicate 5 0, payload := 36
              totLen := 23, len := 23, type := .ram, isCustom := false, ref := 1 }]
      len := 3, oversizeLeft := 5, tcphdr := { seqno := 100 } }] }

/-- Seven bytes written behind three: five go into unused bytes, two into a new segment. -/
theorem tcpWrite_queues_block_seven :
    ∃ pcb', tcpWrite (plainEnv [0, 4, 5, 6, 7, 8, 9, 10]) threeBytesPcb
        { arg := 1, len := 7, copy := true, more := true } = .ok (.ok, pcb') ∧
      queueBytes pcb'.unsent = [1, 2, 3, 4, 5, 6, 7, 8, 9, 10] := by
  have returns : (tcpWrite (plainEnv [0, 4, 5, 6, 7, 8, 9, 10]) threeBytesPcb
      { arg := 1, len := 7, copy := true, more := true }).map (fun result => result.1) =
        .ok .ok := by decide +kernel
  cases done : tcpWrite (plainEnv [0, 4, 5, 6, 7, 8, 9, 10]) threeBytesPcb
      { arg := 1, len := 7, copy := true, more := true } with
  | error message =>
    rw [done] at returns
    cases returns
  | ok result =>
    rw [done] at returns
    obtain ⟨err, pcb'⟩ := result
    cases returns
    refine ⟨pcb', rfl, ?_⟩
    have writable : Writable (plainEnv [0, 4, 5, 6, 7, 8, 9, 10]) threeBytesPcb
        { arg := 1, len := 7, copy := true, more := true } := by
      constructor
      · decide
      · show 1 + 7 ≤ 8
        decide
      · decide
      · intro seg member
        rw [mem_singleton.mp member]
        exact ⟨List.replicate 20 0, rfl, Denotes.single rfl (by decide) rfl (by decide), rfl⟩
      · intro lastUnsent last
        rw [← Option.some.inj last]
        constructor
        · intro p only
          rw [← Option.some.inj only]
          decide
        · intro p member rom
          rw [mem_singleton.mp member] at rom
          cases rom
    exact (tcpWrite_queues_block writable done).1.bytes

end Lwip
