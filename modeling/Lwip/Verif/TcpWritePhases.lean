import Lwip.Verif.TcpFrame

/-!
# The phases of a write

`tcp_write` puts a block of data behind the data that waits to be sent: into unused bytes of the
last pbuf, into a pbuf linked to the last segment, and into new segments. What its three phases
prepare and what is committed at the end are described separately, in terms of the bytes that
segments carry and of the numbers that the send queues account for.
-/

namespace Lwip

open Outcome List

variable {pos length : Nat} {data : List UInt8} {p : Pbuf} {c : Chain}

/-! ## The data of a call -/

section Data

variable {env : TcpEnv} {w : WriteArgs}

/-- The data lies in the memory of the application. -/
def WriteArgs.inMemory (w : WriteArgs) (env : TcpEnv) : Prop := w.arg + w.len ≤ env.mem.length

theorem length_writeData (inside : w.inMemory env) {n : Nat} (within : pos + n ≤ w.len) :
    (writeData env w pos n).length = n := by
  unfold WriteArgs.inMemory at inside
  rw [writeData, length_take, length_drop]
  omega

theorem writeData_add (env : TcpEnv) (w : WriteArgs) (pos n m : Nat) :
    writeData env w pos (n + m) = writeData env w pos n ++ writeData env w (pos + n) m := by
  rw [writeData, writeData, writeData, take_add, drop_drop, Nat.add_assoc]

@[simp] theorem writeData_zero (env : TcpEnv) (w : WriteArgs) (pos : Nat) :
    writeData env w pos 0 = [] := take_zero

end Data

/-! ## New pbufs and segments -/

theorem denotes_pbufAllocRam (offset : Nat) (extra : Nat) (size : data.length = length)
    (fits : length ≤ 65535) : Denotes [pbufAllocRam offset data length extra] data := by
  apply Denotes.single
  · rw [Pbuf.bytes, pbufAllocRam, append_assoc, drop_left' length_replicate, take_left' size]
  · simp only [pbufAllocRam, length_append, length_replicate]
    omega
  · rfl
  · omega

/-- A new `PBUF_ROM` denotes the data that it refers to. -/
theorem denotes_pbufAllocRom {env : TcpEnv} {w : WriteArgs} (inside : w.inMemory env)
    (within : pos + length ≤ w.len) (fits : length ≤ 65535) :
    Denotes [pbufAllocRom env.mem (w.arg + pos) length] (writeData env w pos length) := by
  apply Denotes.single
  · rfl
  · unfold WriteArgs.inMemory at inside
    simp only [pbufAllocRom]
    omega
  · rfl
  · rw [length_writeData inside within]
    exact fits

theorem tcpPbufPrealloc_spec {env : TcpEnv} {n offset : Nat} {maxLength : Nat} {pcb : TcpPcb}
    {more firstSeg : Bool} {oversize : Nat}
    (done : tcpPbufPrealloc env n offset data length maxLength pcb more firstSeg = some
      (p, oversize)) :
    p = pbufAllocRam offset data length oversize := by
  unfold tcpPbufPrealloc at done
  dsimp only at done
  split at done
  · cases done
    rfl
  · cases done

/-- What `tcp_create_segment` returns: a segment with the header in front of the pbufs. -/
theorem tcpCreateSegment_spec (env : TcpEnv) (n used : Nat) (p : Chain) (flags : TcpFlags)
    (seqno : UInt32) (optsMss : Bool) :
    Ensures AnyError (tcpCreateSegment env n used p flags seqno optsMss).erase fun created =>
      ∀ seg ∈ created, used < mempNumTcpSeg ∧ pbufHeader p tcpHlen = .ok (some seg.p) ∧
        seg = { p := seg.p, len := p.totLen - lwipTcpOptLength optsMss, optsMss := optsMss
                tcphdr := { seqno := seqno, flags := flags } } := by
  unfold tcpCreateSegment
  dsimp only
  split
  · rw [Logged.erase_bind]
    apply ensures_skip
    intro _
    exact .ok (by simp)
  rename_i available
  have room : used < mempNumTcpSeg := by
    simp only [tcpSegMalloc, Bool.not_eq_true', Bool.not_eq_false, Bool.and_eq_true,
      decide_eq_true_eq] at available
    exact available.2
  simp only [Logged.erase_bind, Logged.erase_tell, Logged.erase_lift, ok_bind]
  apply ensures_pass trivial
  cases header : pbufHeader p tcpHlen with
  | error message => exact .error trivial
  | ok front =>
    rw [ok_bind]
    cases front with
    | none =>
      simp only [Logged.erase_bind]
      apply ensures_skip
      intro _
      exact .ok (by simp)
    | some p' =>
      apply Ensures.ok
      intro seg member
      rw [← Option.mem_some_iff.mp member]
      exact ⟨room, rfl, rfl⟩

theorem length_pbufHeader {p p' : Chain} {inc : Int} (done : pbufHeader p inc = .ok (some p')) :
    p'.length = p.length := by
  cases p with
  | nil => cases done
  | cons q next =>
    simp only [pbufHeader, Except.ok.injEq, Option.map_eq_some_iff] at done
    obtain ⟨q', _, same⟩ := done
    rw [← same]
    rfl

/-- The largest payload with which the total length of a segment with its header and an option
is a 16-bit number. -/
def maxPayload : Nat := 65511

/-- The bytes that a segment carries behind its header and its options. -/
def SegDenotes (seg : TcpSeg) (data : List UInt8) : Prop :=
  ∃ front, front.length = tcpHlen + lwipTcpOptLength seg.optsMss ∧ Denotes seg.p (front ++ data) ∧
    data.length = seg.len

/-- The header in front of pbufs that denote some data. -/
theorem pbufHeader_front {p p' : Chain} (denotes : Denotes p data)
    (fits : data.length + tcpHlen ≤ 65535) (done : pbufHeader p tcpHlen = .ok (some p')) :
    ∃ front, front.length = tcpHlen ∧ Denotes p' (front ++ data) := by
  cases p with
  | nil => cases done
  | cons q next =>
    have moved := pbufHeader_denotes denotes (by decide) (by omega) done
    simp only [pbufHeader, Except.ok.injEq, Option.map_eq_some_iff] at done
    obtain ⟨q', impl, _⟩ := done
    have room := (pbufHeaderImpl_some (by decide) impl).2.1
    have inside := denotes.inMemory q mem_cons_self
    rw [headerAdjusted, if_neg (by decide)] at moved
    refine ⟨_, ?_, moved⟩
    rw [length_take, length_drop]
    unfold tcpHlen at room ⊢
    simp only [Int.toNat_natCast]
    omega

/-! ## The loop of phase 3 -/

/-- A segment that the loop creates for the data from a position on. -/
structure NewSeg (env : TcpEnv) (pcb : TcpPcb) (w : WriteArgs) (pos : Nat) (seg : TcpSeg) :
    Prop where
  tcphdr : seg.tcphdr = { seqno := pcb.sndLbb + UInt32.ofNat pos }
  optsMss : seg.optsMss = false
  inside : pos < w.len
  len : seg.len = min (w.len - pos) (mssLocal pcb)
  clen : 0 < seg.p.length ∧ seg.p.length ≤ 2
  data : w.inMemory env → mssLocal pcb ≤ maxPayload → SegDenotes seg (writeData env w pos seg.len)

/-- Segments that the loop creates, one behind the other. -/
def NewSegs (env : TcpEnv) (pcb : TcpPcb) (w : WriteArgs) : Nat → List TcpSeg → Prop
  | _, [] => True
  | pos, seg :: more => NewSeg env pcb w pos seg ∧ NewSegs env pcb w (pos + seg.len) more

/-- Length of the data in segments. -/
def segLens (queue : List TcpSeg) : Nat := (queue.map (·.len)).sum

/-- Number of pbufs in segments. -/
def segClens (queue : List TcpSeg) : Nat := (queue.map (·.p.length)).sum

/-- One more segment. -/
theorem NewSegs.append {env : TcpEnv} {pcb : TcpPcb} {w : WriteArgs} {queue : List TcpSeg}
    {seg : TcpSeg} (segs : NewSegs env pcb w pos queue)
    (last : NewSeg env pcb w (pos + segLens queue) seg) :
    NewSegs env pcb w pos (queue ++ [seg]) := by
  induction queue generalizing pos with
  | nil => exact ⟨last, trivial⟩
  | cons first more ih =>
    refine ⟨segs.1, ih segs.2 ?_⟩
    rw [Nat.add_assoc]
    exact last

/-- What the loop of phase 3 has done since its start. -/
structure WriteQueued (env : TcpEnv) (pcb : TcpPcb) (w : WriteArgs) (start l : WriteLocals) :
    Prop where
  segs : NewSegs env pcb w start.pos l.queue
  pos : l.pos = start.pos + segLens l.queue
  queuelen : l.queuelen = start.queuelen + segClens l.queue
  /-- It is bounded, and so is the number of segments. -/
  bounded : l.queue = [] ∨ (l.queuelen ≤ tcpSndQueuelen ∧
    tcpSegsUsed pcb + l.queue.length ≤ mempNumTcpSeg)
  /-- What the other phases have prepared. -/
  prepared : l.oversizeUsed = start.oversizeUsed ∧ l.concatP = start.concatP ∧
    l.extendlen = start.extendlen
  oversize : l.queue = [] → l.oversize = start.oversize

section Segments

variable {env : TcpEnv} {pcb : TcpPcb} {w : WriteArgs}

theorem tcpWritePbuf_spec (seglen : Nat) (l : WriteLocals) (fits : seglen ≤ 65535) :
    Ensures AnyError (tcpWritePbuf env pcb w seglen l).erase fun result =>
      ∀ p oversize allocs, result = some (p, oversize, allocs) →
        (0 < p.length ∧ p.length ≤ 2) ∧ p.totLen = seglen ∧
          (w.inMemory env → l.pos + seglen ≤ w.len → Denotes p (writeData env w l.pos seglen)) := by
  unfold tcpWritePbuf
  split
  · split
    · exact .ok (by simp)
    · rename_i p oversize preallocated
      simp only [Logged.erase_bind, Logged.erase_tell, Logged.erase_lift, ok_bind]
      apply ensures_pass trivial
      apply Ensures.ok
      intro p' oversize' allocs same
      cases same
      rw [tcpPbufPrealloc_spec preallocated]
      refine ⟨by simp, rfl, ?_⟩
      intro inside within
      exact denotes_pbufAllocRam _ _ (length_writeData inside within) fits
  · rw [Logged.erase_bind, Logged.erase_lift]
    apply ensures_pass trivial
    split
    · exact .ok (by simp)
    split
    · exact .ok (by simp)
    simp only [Logged.erase_bind, Logged.erase_tell, Logged.erase_lift, ok_bind]
    cases linked : pbufCat [pbufAllocRam pbufTransport [] 0 0]
        [pbufAllocRom env.mem (w.arg + l.pos) seglen] with
    | error message => exact .error trivial
    | ok p =>
      apply Ensures.ok
      intro p' oversize' allocs same
      cases same
      have shape : p = [{ pbufAllocRam pbufTransport [] 0 0 with totLen := u16 (0 + seglen) },
          pbufAllocRom env.mem (w.arg + l.pos) seglen] := by
        rw [pbufCat, if_neg (by simp), pbufCatLoop, lwipAssert_bind_ok] at linked
        exact (Except.ok.inj linked.2).symm
      refine ⟨by simp [shape], ?_, ?_⟩
      · rw [shape]
        rw [Nat.zero_add]
        exact u16_of_lt (by omega)
      intro inside within
      have head : Denotes [pbufAllocRam pbufTransport [] 0 0] [] :=
        denotes_pbufAllocRam _ _ rfl (by decide)
      have joined := pbufCat_denotes head (denotes_pbufAllocRom inside within fits)
        (by rw [length_writeData inside within, length_nil]; omega) linked
      rw [nil_append] at joined
      exact joined

/-- One pass of the loop creates one segment. -/
theorem tcpWriteSegment_spec {start l : WriteLocals} (queued : WriteQueued env pcb w start l)
    (short : start.queuelen ≤ tcpSndQueuelen) (small : w.len ≤ 65535) (inside : l.pos < w.len) :
    Ensures AnyError (tcpWriteSegment env pcb w l).erase fun result =>
      ∀ l' ∈ result, WriteQueued env pcb w start l' ∧
        l'.pos = l.pos + min (w.len - l.pos) (mssLocal pcb) := by
  unfold tcpWriteSegment
  dsimp only
  have seglen : (if w.len - l.pos > mssLocal pcb then mssLocal pcb else w.len - l.pos) =
      min (w.len - l.pos) (mssLocal pcb) := by
    split <;> omega
  rw [seglen]
  have count : l.queuelen ≤ tcpSndQueuelen := by
    cases queued.bounded with
    | inl none' =>
      rw [queued.queuelen, none']
      exact short
    | inr some' => exact some'.1
  have fits : min (w.len - l.pos) (mssLocal pcb) ≤ 65535 := by omega
  rw [Logged.erase_bind]
  apply (tcpWritePbuf_spec (min (w.len - l.pos) (mssLocal pcb)) l fits).bind
  intro made pbufs
  cases made with
  | none => exact .ok (by simp)
  | some made =>
    obtain ⟨p, oversize, allocs⟩ := made
    obtain ⟨clen, totLen, denotes⟩ := pbufs p oversize allocs rfl
    dsimp only
    have added : u16 (l.queuelen + pbufClen p) = l.queuelen + p.length := by
      unfold tcpSndQueuelen at count
      rw [pbufClen, u16_of_lt (show p.length < 65536 by omega), u16_of_lt (by omega)]
    rw [added]
    split
    · rw [Logged.erase_bind]
      apply ensures_skip
      intro _
      exact .ok (by simp)
    rename_i notFull
    rw [Logged.erase_bind]
    apply (tcpCreateSegment_spec env allocs (tcpSegsUsed pcb + l.queue.length) p {} _ false).bind
    intro created spec
    cases created with
    | none => exact .ok (by simp)
    | some seg =>
      obtain ⟨room, header, same⟩ := spec seg rfl
      have len : seg.len = min (w.len - l.pos) (mssLocal pcb) := by
        rw [same, totLen]
        exact Nat.sub_zero _
      have last : NewSeg env pcb w (start.pos + segLens l.queue)
          { seg with oversizeLeft := oversize } := by
        rw [← queued.pos]
        constructor
        · rw [same]
        · rw [same]
        · exact inside
        · exact len
        · rw [show ({ seg with oversizeLeft := oversize } : TcpSeg).p = seg.p from rfl,
            length_pbufHeader header]
          exact clen
        · intro inMemory bound
          have within : l.pos + min (w.len - l.pos) (mssLocal pcb) ≤ w.len := by omega
          have data := denotes inMemory within
          have size := length_writeData inMemory within
          unfold maxPayload at bound
          obtain ⟨front, frontLen, whole⟩ := pbufHeader_front data
            (by rw [size]; unfold tcpHlen; omega) header
          refine ⟨front, ?_, ?_, ?_⟩
          · rw [same]
            exact frontLen
          · rw [len]
            exact whole
          · rw [len]
            exact size
      apply Ensures.ok
      intro l' member
      rw [← Option.mem_some_iff.mp member]
      have lensAdded : segLens (l.queue ++ [{ seg with oversizeLeft := oversize }]) =
          segLens l.queue + min (w.len - l.pos) (mssLocal pcb) := by
        simp [segLens, len]
      have clensAdded : segClens (l.queue ++ [{ seg with oversizeLeft := oversize }]) =
          segClens l.queue + p.length := by
        simp [segClens, length_pbufHeader header]
      have before := queued.queuelen
      have position := queued.pos
      refine ⟨⟨queued.segs.append last, ?_, ?_, Or.inr
        ⟨Nat.le_of_not_lt fun more => notFull (Or.inl more), ?_⟩, queued.prepared, ?_⟩, rfl⟩
      · rw [lensAdded]
        dsimp only
        omega
      · rw [clensAdded]
        dsimp only
        omega
      · simp only [length_append, length_singleton]
        omega
      · intro empty
        simp at empty

/-- Without room for data in a segment the loop does not end with success. -/
theorem tcpWriteSegments_stuck (none' : mssLocal pcb = 0) {fuel : Nat} {l l' : WriteLocals}
    (open' : l.pos < w.len) : (tcpWriteSegments env pcb w fuel l).erase ≠ .ok (some l') := by
  induction fuel generalizing l with
  | zero => simp [tcpWriteSegments]
  | succ fuel ih =>
    intro done
    rw [tcpWriteSegments, if_pos open', Logged.erase_bind] at done
    obtain ⟨passed, pass, rest⟩ := bind_ok.mp done
    cases passed with
    | none =>
      rw [Logged.erase_bind, Logged.erase_tell] at rest
      cases rest
    | some next =>
      have same : next.pos = l.pos := by
        unfold tcpWriteSegment at pass
        dsimp only at pass
        rw [Logged.erase_bind] at pass
        obtain ⟨made, _, pass⟩ := bind_ok.mp pass
        cases made with
        | none => cases pass
        | some made =>
          dsimp only at pass
          split at pass
          · rw [Logged.erase_bind] at pass
            obtain ⟨_, _, pass⟩ := bind_ok.mp pass
            cases pass
          rw [Logged.erase_bind] at pass
          obtain ⟨created, _, pass⟩ := bind_ok.mp pass
          cases created with
          | none => cases pass
          | some seg =>
            cases pass
            dsimp only
            rw [none']
            split <;> omega
      exact ih (by omega) rest

/-- The loop of phase 3 creates segments for all of the data. -/
theorem tcpWriteSegments_spec {start : WriteLocals} (short : start.queuelen ≤ tcpSndQueuelen)
    (small : w.len ≤ 65535) {fuel : Nat} {l : WriteLocals}
    (queued : WriteQueued env pcb w start l) (inside : l.pos ≤ w.len) :
    Ensures AnyError (tcpWriteSegments env pcb w fuel l).erase fun result =>
      ∀ l' ∈ result, WriteQueued env pcb w start l' ∧ l'.pos = w.len := by
  induction fuel generalizing l with
  | zero => exact .error trivial
  | succ fuel ih =>
    unfold tcpWriteSegments
    split
    · rename_i open'
      rw [Logged.erase_bind]
      apply (tcpWriteSegment_spec queued short small open').bind
      intro passed spec
      cases passed with
      | none => exact .ok (by simp)
      | some next =>
        obtain ⟨queued', position⟩ := spec next rfl
        exact ih queued' (by omega)
    · rename_i done
      apply Ensures.ok
      intro l' member
      rw [← Option.mem_some_iff.mp member]
      exact ⟨queued, by omega⟩

end Segments

/-! ## Phases 1 and 2 -/

/-- What phases 1 and 2 prepare for the end of the last unsent segment. -/
structure TailReady (env : TcpEnv) (pcb : TcpPcb) (w : WriteArgs) (lastUnsent : TcpSeg)
    (l : WriteLocals) : Prop where
  queue : l.queue = []
  pos : l.pos = l.oversizeUsed + l.concatP.totLen + l.extendlen
  inside : l.pos ≤ w.len
  fits : lastUnsent.len + lwipTcpOptLength lastUnsent.optsMss + l.pos ≤ mssLocal pcb
  /-- Unused bytes are used first. -/
  used : l.oversizeUsed ≤ pcb.unsentOversize
  /-- At most one pbuf is linked, with some data, and then none is extended. -/
  linked : l.concatP = [] ∨ ∃ p, l.concatP = [p] ∧ 0 < p.totLen ∧ p.totLen ≤ w.len ∧
    l.extendlen = 0 ∧ (w.inMemory env → Denotes [p] (writeData env w l.oversizeUsed p.totLen))
  /-- A pbuf is extended only if it refers to the memory in front of the data. -/
  extended : 0 < l.extendlen → l.concatP = [] ∧ l.oversizeUsed = 0 ∧
    ∃ p, lastUnsent.p.getLast? = some p ∧ p.type = .rom ∧ p.payload + p.len = w.arg
  filled : l.concatP ≠ [] ∨ 0 < l.extendlen → 0 < lastUnsent.len
  queuelen : (l.concatP = [] ∧ l.queuelen = pcb.sndQueuelen) ∨
    (l.concatP ≠ [] ∧ l.queuelen = u16 (pcb.sndQueuelen + 1))
  /-- Unused bytes are left in pbufs that hold data. -/
  oversize : 0 < l.oversize → 0 < pcb.unsentOversize ∨ 0 < lastUnsent.len

section Tail

variable {env : TcpEnv} {pcb : TcpPcb} {w : WriteArgs}

/-- Phase 2 prepares a pbuf or the extension of one. -/
theorem tcpWriteConcat_spec {lastUnsent : TcpSeg} {space : Nat} {l : WriteLocals}
    (small : w.len ≤ 65535) (ready : TailReady env pcb w lastUnsent l)
    (fresh : l.concatP = [] ∧ l.extendlen = 0 ∧ l.queuelen = pcb.sndQueuelen)
    (room : lastUnsent.len + lwipTcpOptLength lastUnsent.optsMss + l.pos + space ≤ mssLocal pcb) :
    Ensures AnyError (tcpWriteConcat env pcb w lastUnsent space l).erase fun result =>
      (∃ left, result.2 = { lastUnsent with oversizeLeft := left }) ∧
        ∀ l' ∈ result.1, TailReady env pcb w lastUnsent l' := by
  obtain ⟨noConcat, noExtend, queuelen⟩ := fresh
  have position : l.pos = l.oversizeUsed := by
    rw [ready.pos, noConcat, noExtend]
    rfl
  have same : ∃ left, lastUnsent = { lastUnsent with oversizeLeft := left } :=
    ⟨lastUnsent.oversizeLeft, rfl⟩
  unfold tcpWriteConcat
  split
  · rename_i tail
    have seglen : (if space < w.len - l.pos then space else w.len - l.pos) =
        min space (w.len - l.pos) := by
      split <;> omega
    dsimp only
    rw [seglen]
    have positive : 0 < min space (w.len - l.pos) := by omega
    have within : l.pos + min space (w.len - l.pos) ≤ w.len := by omega
    have fits : lastUnsent.len + lwipTcpOptLength lastUnsent.optsMss +
        (l.pos + min space (w.len - l.pos)) ≤ mssLocal pcb := by omega
    generalize min space (w.len - l.pos) = seglen at positive within fits
    split
    · split
      · exact .ok ⟨same, by simp⟩
      · rename_i concatP oversize preallocated
        have pbuf := tcpPbufPrealloc_spec preallocated
        have total : concatP.totLen = seglen := by rw [pbuf]; rfl
        rw [Logged.erase_bind, Logged.erase_tell, ok_bind]
        apply Ensures.ok
        refine ⟨⟨_, rfl⟩, ?_⟩
        intro l' member
        rw [← Option.mem_some_iff.mp member]
        constructor
        · exact ready.queue
        · show l.pos + seglen = l.oversizeUsed + concatP.totLen + l.extendlen
          rw [total, noExtend, position]
          rfl
        · exact within
        · exact fits
        · exact ready.used
        · refine .inr ⟨concatP, rfl, by omega, by omega, noExtend, ?_⟩
          intro inMemory
          rw [total, pbuf, position]
          rw [position] at within
          exact denotes_pbufAllocRam _ _ (length_writeData inMemory within) (by omega)
        · intro some'
          dsimp only at some'
          omega
        · exact fun _ => tail.2.2
        · right
          rw [queuelen]
          exact ⟨by simp, rfl⟩
        · exact fun _ => .inr tail.2.2
    · split
      · exact .error trivial
      · rename_i p last
        split
        · rename_i rom
          rw [Logged.erase_bind, Logged.erase_lift]
          apply ensures_assert (fun _ => trivial)
          intro start
          apply Ensures.ok
          refine ⟨same, ?_⟩
          intro l' member
          rw [← Option.mem_some_iff.mp member]
          constructor
          · exact ready.queue
          · show l.pos + seglen = l.oversizeUsed + l.concatP.totLen + seglen
            rw [noConcat, position]
            rfl
          · exact within
          · exact fits
          · exact ready.used
          · exact .inl noConcat
          · exact fun _ => ⟨noConcat, by dsimp only; omega, p, last, rom⟩
          · exact fun _ => tail.2.2
          · exact .inl ⟨noConcat, queuelen⟩
          · exact fun _ => .inr tail.2.2
        · split
          · exact .ok ⟨same, by simp⟩
          · rw [Logged.erase_bind, Logged.erase_tell, ok_bind]
            apply Ensures.ok
            refine ⟨same, ?_⟩
            intro l' member
            rw [← Option.mem_some_iff.mp member]
            constructor
            · exact ready.queue
            · show l.pos + seglen = l.oversizeUsed + seglen + l.extendlen
              rw [noExtend, position]
              rfl
            · exact within
            · exact fits
            · exact ready.used
            · refine .inr ⟨_, rfl, positive, by show seglen ≤ w.len; omega, noExtend, ?_⟩
              intro inMemory
              rw [position] at within ⊢
              exact denotes_pbufAllocRom inMemory within (by show seglen ≤ 65535; omega)
            · intro some'
              dsimp only at some'
              omega
            · exact fun _ => tail.2.2
            · right
              rw [queuelen]
              exact ⟨by simp, rfl⟩
            · exact ready.oversize
  · apply Ensures.ok
    refine ⟨same, ?_⟩
    intro l' member
    rw [← Option.mem_some_iff.mp member]
    exact ready

/-- Phases 1 and 2 prepare the end of the last unsent segment. -/
theorem tcpWriteTail_spec (lastUnsent : TcpSeg) (small : w.len ≤ 65535) :
    Ensures AnyError (tcpWriteTail env pcb w lastUnsent).erase fun result =>
      (∃ left, result.2 = { lastUnsent with oversizeLeft := left }) ∧
        ∀ l ∈ result.1, TailReady env pcb w lastUnsent l := by
  unfold tcpWriteTail
  simp only [Logged.erase_bind, Logged.erase_lift]
  apply ensures_assert (fun _ => trivial)
  intro enough
  apply ensures_pass trivial
  apply ensures_pass trivial
  apply ensures_pass trivial
  apply tcpWriteConcat_spec small
  · constructor
    · rfl
    · rfl
    · show min _ (min pcb.unsentOversize w.len) ≤ w.len
      omega
    · show lastUnsent.len + lwipTcpOptLength lastUnsent.optsMss + min _ _ ≤ mssLocal pcb
      omega
    · show min _ (min pcb.unsentOversize w.len) ≤ pcb.unsentOversize
      omega
    · exact .inl rfl
    · exact fun some' => absurd some' (Nat.lt_irrefl 0)
    · intro either
      cases either with
      | inl linked => exact absurd rfl linked
      | inr extended => exact absurd extended (Nat.lt_irrefl 0)
    · exact .inl ⟨rfl, rfl⟩
    · intro left
      dsimp only at left
      exact .inl (by omega)
  · exact ⟨rfl, rfl, rfl⟩
  · dsimp only
    omega

end Tail

/-! ## Commit -/

/-- A chain whose last pbuf grows, with the total lengths. -/
def growTail (n : Nat) (grow : Pbuf → Pbuf) : Chain → Chain
  | [] => []
  | [p] => [{ grow p with totLen := u16 (p.totLen + n) }]
  | p :: q :: next => { p with totLen := u16 (p.totLen + n) } :: growTail n grow (q :: next)

@[simp] theorem length_growTail (n : Nat) (grow : Pbuf → Pbuf) (c : Chain) :
    (growTail n grow c).length = c.length := by
  induction c with
  | nil => rfl
  | cons p next ih =>
    cases next with
    | nil => rfl
    | cons q more => simpa [growTail] using ih

/-- The commit of phase 1 lets the last pbuf grow. -/
theorem pbufFillTail_eq (data : List UInt8) (c : Chain) :
    pbufFillTail data c = growTail data.length (fun p => { p with
      mem := p.mem.take (p.payload + p.len) ++ data ++ p.mem.drop (p.payload + p.len + data.length)
      len := u16 (p.len + data.length) }) c := by
  induction c with
  | nil => rfl
  | cons p next ih =>
    cases next with
    | nil => rfl
    | cons q more => rw [pbufFillTail, growTail, ih]

/-- The commit of phase 2 lets the last pbuf grow. -/
theorem pbufExtendTail_eq (extendlen : Nat) (c : Chain) :
    pbufExtendTail extendlen c =
      growTail extendlen (fun p => { p with len := u16 (p.len + extendlen) }) c := by
  induction c with
  | nil => rfl
  | cons p next ih =>
    cases next with
    | nil => rfl
    | cons q more => rw [pbufExtendTail, growTail, ih]

/-- No pbuf of a chain is longer than the string. -/
theorem Denotes.len_le {b : List UInt8} (denotes : Denotes c b) (member : p ∈ c) :
    p.len ≤ b.length := by
  have own := Pbuf.length_bytes (denotes.inMemory p member)
  obtain ⟨before, behind, here⟩ := append_of_mem member
  have bytes := denotes.bytes
  rw [here, Chain.bytes_append, Chain.bytes_cons] at bytes
  have size := congrArg List.length bytes
  simp only [length_append] at size
  omega

/-- Bytes written behind the payload belong to it when it is long enough. -/
theorem take_drop_filled (mem data rest : List UInt8) {payload len : Nat}
    (held : payload + len ≤ mem.length) :
    ((mem.take (payload + len) ++ data ++ rest).drop payload).take (len + data.length) =
      (mem.drop payload).take len ++ data := by
  have front : (mem.take (payload + len)).length = payload + len := by
    rw [length_take]
    omega
  have own : ((mem.drop payload).take len).length = len := by
    rw [length_take, length_drop]
    omega
  rw [append_assoc, drop_append_of_le_length (by omega), drop_take,
    Nat.add_sub_cancel_left, ← append_assoc,
    take_left' (by rw [length_append, own])]

/-- The bytes by which the last pbuf grows come to the string. -/
theorem growTail_denotes {b extra : List UInt8} {grow : Pbuf → Pbuf} (denotes : Denotes c b)
    (last : c.getLast? = some p) (grown : (grow p).bytes = p.bytes ++ extra)
    (inside : (grow p).payload + (grow p).len ≤ (grow p).mem.length)
    (fits : b.length + extra.length ≤ 65535) :
    Denotes (growTail extra.length grow c) (b ++ extra) := by
  induction c generalizing b with
  | nil => exact absurd rfl denotes.nonempty
  | cons q next ih =>
    obtain ⟨own, behind, bound, count, nextCount⟩ := denotes.cons_inv
    have total : u16 (q.totLen + extra.length) = b.length + extra.length := by
      rw [count, u16_of_lt (by omega)]
    cases next with
    | nil =>
      rw [getLast?_singleton, Option.some.injEq] at last
      subst last
      have whole : q.bytes = b := by simpa [Chain.bytes] using denotes.bytes
      have size := Pbuf.length_bytes inside
      rw [grown, whole, length_append] at size
      apply Denotes.single
      · rw [← whole]
        exact grown
      · exact inside
      · rw [total]
        exact size
      · rw [length_append]
        exact fits
    | cons r more =>
      have deeper := ih (denotes.tail (by simp)) (by simpa using last)
        (by simp only [length_drop]; omega)
      have joined : b ++ extra = b.take q.len ++ (b.drop q.len ++ extra) := by
        rw [← append_assoc, take_append_drop]
      have size : (b.take q.len ++ (b.drop q.len ++ extra)).length = b.length + extra.length := by
        rw [← joined, length_append]
      rw [joined]
      exact Denotes.of_cons own (denotes.inMemory q mem_cons_self)
        (by rw [size]; exact total) (by rw [size]; exact fits) deeper

theorem length_pbufCat {h t : Chain} (head : h ≠ []) (done : pbufCat h t = .ok c) :
    c.length = h.length + t.length := by
  by_cases tail : t = []
  · rw [pbufCat, if_pos (Or.inr tail)] at done
    cases done
    rw [tail]
    rfl
  · rw [((pbufCat_ok_iff head tail).1 done).2, length_append, length_map]

/-- The unused bytes at the end of the last unsent segment are there, and a `PBUF_ROM` refers to
the memory of the application. -/
structure TailGood (env : TcpEnv) (pcb : TcpPcb) (lastUnsent : TcpSeg) : Prop where
  room : ∀ p, lastUnsent.p.getLast? = some p →
    p.payload + p.len + pcb.unsentOversize ≤ p.mem.length
  rom : ∀ p ∈ lastUnsent.p, p.type = .rom → p.mem = env.mem

/-- What the commit of phase 1 makes of the last unsent segment. -/
structure TailFilled (env : TcpEnv) (pcb : TcpPcb) (w : WriteArgs) (lastUnsent : TcpSeg)
    (l : WriteLocals) (filled : TcpSeg) : Prop where
  tcphdr : filled.tcphdr = lastUnsent.tcphdr
  optsMss : filled.optsMss = lastUnsent.optsMss
  len : filled.len = lastUnsent.len + l.oversizeUsed
  clen : filled.p.length = lastUnsent.p.length
  kept : l.oversizeUsed = 0 → filled.p = lastUnsent.p
  data : ∀ data, w.inMemory env → mssLocal pcb ≤ maxPayload → TailGood env pcb lastUnsent →
    SegDenotes lastUnsent data → SegDenotes filled (data ++ writeData env w 0 l.oversizeUsed)

/-- What the commit makes of the last unsent segment. -/
structure TailCommitted (env : TcpEnv) (pcb : TcpPcb) (w : WriteArgs) (lastUnsent : TcpSeg)
    (l : WriteLocals) (linked : TcpSeg) : Prop where
  tcphdr : linked.tcphdr = lastUnsent.tcphdr
  optsMss : linked.optsMss = lastUnsent.optsMss
  len : linked.len = lastUnsent.len + l.pos
  clen : linked.p.length = lastUnsent.p.length + l.concatP.length
  data : ∀ data, w.inMemory env → mssLocal pcb ≤ maxPayload → TailGood env pcb lastUnsent →
    SegDenotes lastUnsent data → SegDenotes linked (data ++ writeData env w 0 l.pos)

section Commit

variable {env : TcpEnv} {pcb : TcpPcb} {w : WriteArgs} {lastUnsent : TcpSeg} {l : WriteLocals}

theorem tcpCommitOversize_spec (pcb : TcpPcb) {lastUnsent' : TcpSeg} {left : Nat}
    (same : lastUnsent' = { lastUnsent with oversizeLeft := left })
    (inside : l.oversizeUsed ≤ w.len)
    (room : lastUnsent.len + lwipTcpOptLength lastUnsent.optsMss + l.oversizeUsed ≤ mssLocal pcb)
    (small : lastUnsent.len + l.oversizeUsed < 65536) :
    Ensures AnyError (tcpCommitOversize env w l lastUnsent')
      (TailFilled env pcb w lastUnsent l) := by
  unfold tcpCommitOversize
  split
  · rename_i positive
    apply ensures_pass trivial
    apply Ensures.ok
    rw [same]
    refine ⟨rfl, rfl, u16_of_lt small, ?_, ?_, ?_⟩
    · show (pbufFillTail _ lastUnsent.p).length = _
      rw [pbufFillTail_eq, length_growTail]
    · intro zero
      omega
    intro data inMemory bound good denotes
    obtain ⟨front, frontLen, whole, size⟩ := denotes
    have extra := length_writeData inMemory (show 0 + l.oversizeUsed ≤ w.len by omega)
    unfold maxPayload at bound
    have total : (front ++ data).length + (writeData env w 0 l.oversizeUsed).length ≤ 65535 := by
      rw [length_append, frontLen, size, extra]
      unfold tcpHlen
      omega
    cases last : lastUnsent.p.getLast? with
    | none => exact absurd (getLast?_eq_none_iff.mp last) whole.nonempty
    | some p =>
      have held := whole.inMemory p (mem_of_getLast? last)
      have lenBound : p.len + l.oversizeUsed < 65536 := by
        have short := whole.len_le (mem_of_getLast? last)
        omega
      refine ⟨front, frontLen, ?_, ?_⟩
      · show Denotes (pbufFillTail _ lastUnsent.p) _
        rw [pbufFillTail_eq, ← append_assoc]
        apply growTail_denotes whole last
        · simp only [Pbuf.bytes, extra, u16_of_lt lenBound]
          have filled := take_drop_filled p.mem (writeData env w 0 l.oversizeUsed)
            (p.mem.drop (p.payload + p.len + l.oversizeUsed)) held
          rw [extra] at filled
          exact filled
        · simp only [extra, u16_of_lt lenBound, length_append, length_take, length_drop]
          omega
        · exact total
      · rw [length_append, size, extra]
        exact (u16_of_lt small).symm
  · rename_i zero
    have none' : l.oversizeUsed = 0 := by omega
    apply Ensures.ok
    rw [same]
    refine ⟨rfl, rfl, by rw [none']; rfl, rfl, fun _ => rfl, ?_⟩
    intro data _ _ _ denotes
    rw [none', writeData_zero, append_nil]
    exact denotes

/-- Phase 2 links a pbuf or lets the last one grow. -/
theorem tcpCommitConcat_spec {filled : TcpSeg} (ready : TailReady env pcb w lastUnsent l)
    (some' : lastUnsent.p ≠ []) (small : lastUnsent.len + l.pos < 65536)
    (committed : TailFilled env pcb w lastUnsent l filled) :
    Ensures AnyError (tcpCommitConcat l filled) (TailCommitted env pcb w lastUnsent l) := by
  obtain ⟨tcphdr, optsMss, len, clen, kept, denotes⟩ := committed
  have position := ready.pos
  have fits := ready.fits
  unfold tcpCommitConcat
  split
  · rename_i linked
    cases ready.linked with
    | inl none' => exact absurd none' linked
    | inr one =>
      obtain ⟨p, only, positive, within, noExtend, data⟩ := one
      have total : l.concatP.totLen = p.totLen := by rw [only]; rfl
      have pos : l.pos = l.oversizeUsed + p.totLen := by omega
      have newLen : u16 (filled.len + l.concatP.totLen) = lastUnsent.len + l.pos := by
        rw [len, total, u16_of_lt (by omega)]
        omega
      have nonempty : filled.p ≠ [] := by
        intro empty
        rw [empty] at clen
        exact some' (length_eq_zero_iff.mp clen.symm)
      cases joined : pbufCat filled.p l.concatP with
      | error message => exact .error trivial
      | ok chain =>
        apply Ensures.ok
        constructor
        · exact tcphdr
        · exact optsMss
        · exact newLen
        · dsimp only
          rw [length_pbufCat nonempty joined, clen]
        intro old inMemory bound good oldDenotes
        obtain ⟨front, frontLen, whole, size⟩ := denotes old inMemory bound good oldDenotes
        have piece := length_writeData inMemory
          (show l.oversizeUsed + p.totLen ≤ w.len by have := ready.inside; omega)
        have bytes := data inMemory
        rw [← only] at bytes
        unfold maxPayload at bound
        rw [optsMss] at frontLen
        have cat := pbufCat_denotes whole bytes
          (by rw [length_append, frontLen, size, piece, len]; unfold tcpHlen; omega) joined
        refine ⟨front, ?_, ?_, ?_⟩
        · exact frontLen.trans (by rw [optsMss])
        · rw [pos, writeData_add, Nat.zero_add, ← append_assoc, ← append_assoc]
          rw [← append_assoc] at cat
          exact cat
        · show (old ++ writeData env w 0 l.pos).length = u16 (filled.len + l.concatP.totLen)
          rw [newLen, length_append, oldDenotes.choose_spec.2.2, length_writeData inMemory
            (by have := ready.inside; omega)]
  · rename_i unlinked
    have none' : l.concatP = [] := not_not.mp unlinked
    have noTotal : l.concatP.totLen = 0 := by rw [none']; rfl
    split
    · rename_i positive
      obtain ⟨_, noOversize, p, last, rom, adjacent⟩ := ready.extended positive
      have pos : l.pos = l.extendlen := by omega
      have newLen : u16 (filled.len + l.extendlen) = lastUnsent.len + l.pos := by
        rw [len, u16_of_lt (by omega)]
        omega
      apply Ensures.ok
      constructor
      · exact tcphdr
      · exact optsMss
      · exact newLen
      · show (pbufExtendTail l.extendlen filled.p).length = _
        rw [pbufExtendTail_eq, length_growTail, clen, none']
        rfl
      intro old inMemory bound good oldDenotes
      obtain ⟨front, frontLen, whole, size⟩ := oldDenotes
      have member := mem_of_getLast? last
      have memory := good.rom p member rom
      have piece : (writeData env w 0 l.pos).length = l.extendlen := by
        rw [pos]
        exact length_writeData inMemory (by have := ready.inside; omega)
      have short := whole.len_le member
      unfold maxPayload at bound
      have total : (front ++ old).length + (writeData env w 0 l.pos).length ≤ 65535 := by
        rw [length_append, frontLen, size, piece]
        unfold tcpHlen
        omega
      have lenBound : p.len + l.extendlen < 65536 := by omega
      have inside := ready.inside
      have block := inMemory
      unfold WriteArgs.inMemory at block
      refine ⟨front, ?_, ?_, ?_⟩
      · exact frontLen.trans (by rw [optsMss])
      · show Denotes (pbufExtendTail l.extendlen filled.p) _
        rw [pbufExtendTail_eq, kept noOversize, ← append_assoc, ← piece]
        apply growTail_denotes whole last
        · simp only [Pbuf.bytes, piece, u16_of_lt lenBound]
          rw [take_add, drop_drop, adjacent, memory, pos]
          rfl
        · simp only [piece, u16_of_lt lenBound, memory]
          omega
        · exact total
      · show _ = u16 (filled.len + l.extendlen)
        rw [newLen, length_append, size, piece, pos]
    · rename_i notExtended
      have pos : l.pos = l.oversizeUsed := by omega
      apply Ensures.ok
      constructor
      · exact tcphdr
      · exact optsMss
      · rw [len, pos]
      · rw [clen, none']
        rfl
      · intro old inMemory bound good oldDenotes
        rw [pos]
        exact denotes old inMemory bound good oldDenotes

end Commit

end Lwip
