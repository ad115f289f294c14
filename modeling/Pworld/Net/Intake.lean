import Pworld.Net.Receive
import Pworld.Net.Update
import Mathlib.Data.List.Perm.Basic

/-! One `Update` as the decoder and the pool see it: the packets of the bytes it takes
in go to the waiting queue, and no buffer is in two places. -/
namespace Pworld.Net

open Framing

/-- The bytes that `_post_recv` takes out of these results of recv. -/
def taken : List RecvRet → Bytes
  | [] => []
  | .data chunk _::rets => if chunk.length = maxBufferSize then chunk ++ taken rets else chunk
  | .intr::rets => taken rets
  | _::_ => []

theorem Session.Left.keep {s s' : Session} {before : Option Bytes} (left : s.Left before)
    (header : s'.msgHeader = s.msgHeader) (recv : s'.msgRecv = s.msgRecv)
    (disconnect : s.disconnect = true → s'.disconnect = true) : s'.Left before := by
  cases before with
  | none =>
    obtain ⟨full,empty,length,disconnected⟩ := left
    exact ⟨header ▸ full,recv ▸ empty,header ▸ length,disconnect disconnected⟩
  | some rest =>
    obtain ⟨⟨dataLen,waits,fills⟩,pending⟩ := left
    refine ⟨⟨header ▸ dataLen,?_,?_⟩,?_⟩
    · rw [recv,header]
      exact waits
    · rw [recv,header]
      exact fills
    · rw [← pending,Session.pending,header,recv,Session.pending]

theorem Message.reset_addr (m : Message) (size : Nat) (fits : size ≤ maxPacketSize) :
    (m.reset size fits).addr = m.addr := by
  simp only [reset,RawMessage.reset]
  split <;> rfl

theorem Message.fill_addr (m : Message) (data : Bytes) : (m.fill data).1.addr = m.addr := by
  rw [fill_raw]
  rfl

namespace Ctx

/-- The bytes that an `Update` takes in. -/
def arrived (c : Ctx) (i : UpdateIn) : Bytes :=
  let s := (c.self.takeEvents i.sockErr).2
  if !i.locked || s.recvOver || s.status != .running || !s.rdReady then [] else taken i.recvs

/-- The receive buffers that this session and the queue hold. -/
def buffers (c : Ctx) : List Nat :=
  (c.env.recvQue.waiting ++ c.env.recvQue.recycle).map (·.addr) ++
    (c.self.msgRecv.map (·.addr)).toList

/-- Nothing happens to what is received. -/
structure Quiet (c c' : Ctx) : Prop where
  header : c'.self.msgHeader = c.self.msgHeader
  recv : c'.self.msgRecv = c.self.msgRecv
  disconnect : c.self.disconnect = true → c'.self.disconnect = true
  recvQue : c'.env.recvQue = c.env.recvQue
  next : c'.env.next = c.env.next

theorem Quiet.refl (c : Ctx) : Quiet c c := ⟨rfl,rfl,id,rfl,rfl⟩

theorem Quiet.trans {c d e : Ctx} (first : Quiet c d) (second : Quiet d e) : Quiet c e where
  header := second.header.trans first.header
  recv := second.recv.trans first.recv
  disconnect := second.disconnect ∘ first.disconnect
  recvQue := second.recvQue.trans first.recvQue
  next := second.next.trans first.next

/-- Buffers change places, and those that are new are made for it. -/
structure Shuffle (c c' : Ctx) : Prop where
  next : c.env.next ≤ c'.env.next
  buffers : ∃ made : List Nat, made.Nodup ∧ (∀ a ∈ made, c.env.next ≤ a ∧ a < c'.env.next) ∧
    c'.buffers.Perm (c.buffers ++ made)
  recycle : c'.env.recvQue.recycle <:+ c.env.recvQue.recycle

theorem Shuffle.of_perm {c c' : Ctx} (next : c'.env.next = c.env.next)
    (recycle : c'.env.recvQue.recycle = c.env.recvQue.recycle)
    (perm : c'.buffers.Perm c.buffers) : Shuffle c c' where
  next := next.ge
  buffers := ⟨[],List.nodup_nil,by simp,by rwa [List.append_nil]⟩
  recycle := recycle ▸ List.suffix_refl _

theorem Quiet.shuffle {c c' : Ctx} (quiet : Quiet c c') : Shuffle c c' := by
  refine .of_perm quiet.next (by rw [quiet.recvQue]) ?_
  rw [buffers,buffers,quiet.recvQue,quiet.recv]

theorem Shuffle.trans {c d e : Ctx} (first : Shuffle c d) (second : Shuffle d e) :
    Shuffle c e where
  next := first.next.trans second.next
  buffers := by
    obtain ⟨made₁,nodup₁,range₁,perm₁⟩ := first.buffers
    obtain ⟨made₂,nodup₂,range₂,perm₂⟩ := second.buffers
    have below := first.next
    have above := second.next
    refine ⟨made₁ ++ made₂,?_,?_,?_⟩
    · refine List.nodup_append.mpr ⟨nodup₁,nodup₂,?_⟩
      rintro a here b there rfl
      have low := (range₁ a here).2
      have high := (range₂ a there).1
      omega
    · intro a member
      rcases List.mem_append.mp member with here | there
      · have range := range₁ a here
        omega
      · have range := range₂ a there
        omega
    · rw [← List.append_assoc]
      exact perm₂.trans (perm₁.append_right made₂)
  recycle := second.recycle.trans first.recycle

/-- The buffer to fill is the one begun, the first of the pool or a new one. -/
theorem beginRecv_shuffle {c d : Ctx} {m : Message} (began : c.beginRecv = some (m,d)) :
    c.env.next ≤ d.env.next ∧ d.env.recvQue.recycle <:+ c.env.recvQue.recycle ∧
    ∃ made : List Nat, made.Nodup ∧ (∀ a ∈ made, c.env.next ≤ a ∧ a < d.env.next) ∧
      ((d.env.recvQue.waiting ++ d.env.recvQue.recycle).map (·.addr) ++ [m.addr]).Perm
        (c.buffers ++ made) := by
  unfold beginRecv at began
  split at began
  next stored =>
    cases began
    refine ⟨Nat.le_refl _,List.suffix_refl _,[],List.nodup_nil,by simp,?_⟩
    rw [buffers,stored,List.append_nil]
    rfl
  next empty =>
    split at began
    · contradiction
    · cases began
      rw [Message.reset_addr,buffers,empty]
      unfold applyRecv MessageQueue.applyMessage
      split
      next none =>
        refine ⟨Nat.le_succ _,?_,[c.env.next],List.pairwise_singleton _ _,by simp,?_⟩
        · exact List.suffix_refl _
        · simp only [Option.map_none,Option.toList_none,List.append_nil]
          exact .refl _
      next m rest pooled =>
        refine ⟨Nat.le_refl _,?_,[],List.nodup_nil,by simp,?_⟩
        · rw [pooled]
          exact List.suffix_cons m rest
        · simp only [pooled,Option.map_none,Option.toList_none,List.append_nil,List.map_append,
            List.map_cons,List.append_assoc]
          exact (List.perm_append_singleton _ _).append_left _

theorem onRecvBody_shuffle {now : Nat} {c : Ctx} {data : Bytes} {o : (Ctx × Bytes) ⊕ Ctx}
    (ran : onRecvBody now (c,data) = some o) : Shuffle c (o.elim Prod.fst id) := by
  unfold onRecvBody at ran
  simp only [Message.fillWhile_eq] at ran
  split at ran
  next =>
    cases ran
    exact .of_perm rfl rfl (.refl _)
  next =>
    split at ran
    next =>
      cases ran
      refine .of_perm rfl rfl ?_
      simp only [Sum.elim_inr,id,buffers,Session.Disconnect]
      split <;> exact .refl _
    next m d began =>
      obtain ⟨next,recycle,made,nodup,range,perm⟩ := beginRecv_shuffle began
      cases ran
      generalize rest : c.self.msgHeader.fill data = header at perm
      have last : Shuffle c (if (m.fill header.2).1.full = true
          then d.pushRecv (m.fill header.2).1 now
          else {d with self := {d.self with msgRecv := some (m.fill header.2).1}}) := by
        split
        · refine ⟨next,⟨made,nodup,range,List.Perm.trans ?_ perm⟩,recycle⟩
          simp only [buffers,pushRecv,MessageQueue.pushMessage,Option.map_none,
            Option.toList_none,List.append_nil,List.map_append,List.append_assoc,List.map_cons,
            List.map_nil]
          apply List.Perm.append_left _
          show List.Perm ([(m.fill header.2).1.addr] ++ _) _
          rw [Message.fill_addr]
          exact List.perm_append_comm
        · refine ⟨next,⟨made,nodup,range,List.Perm.trans ?_ perm⟩,recycle⟩
          simp only [buffers,Option.map_some,Option.toList_some,Message.fill_addr]
          exact .refl _
      split
      · exact last
      · exact last

theorem onRecv_shuffle {c c' : Ctx} {data : Bytes} {now : Nat}
    (ran : c.onRecv data now = some c') : Shuffle c c' := by
  refine Loop.iterate_partial (fun s => Shuffle c s.1) (fun d => Shuffle c d) ?_ ?_
    (Quiet.refl c).shuffle ran
  · intro s s' before again
    exact before.trans (onRecvBody_shuffle (o := .inl s') again)
  · intro s d before left
    exact before.trans (onRecvBody_shuffle (o := .inr d) left)

/-- The decoder absorbs `data`. -/
structure Intake (c c' : Ctx) (data : Bytes) : Prop extends Shuffle c c' where
  absorbs : ∀ before, Settled wire before → c.self.Left before →
    c'.self.Left (absorb wire before data).2 ∧
    ∃ ms, c'.env.recvQue.waiting = c.env.recvQue.waiting ++ ms ∧
      ms.map Message.bytes = (absorb wire before data).1

theorem Quiet.intake {c c' : Ctx} (quiet : Quiet c c') : Intake c c' [] where
  toShuffle := quiet.shuffle
  absorbs := by
    intro before settled left
    rw [absorb_nil settled]
    refine ⟨left.keep quiet.header quiet.recv quiet.disconnect,[],?_,rfl⟩
    rw [quiet.recvQue,List.append_nil]

theorem Intake.trans {c d e : Ctx} {xs ys : Bytes} (first : Intake c d xs)
    (second : Intake d e ys) : Intake c e (xs ++ ys) where
  toShuffle := first.toShuffle.trans second.toShuffle
  absorbs := by
    intro before settled left
    obtain ⟨left₁,ms₁,waiting₁,bytes₁⟩ := first.absorbs before settled left
    obtain ⟨left₂,ms₂,waiting₂,bytes₂⟩ :=
      second.absorbs _ (absorb_settled before xs) left₁
    rw [absorb_append]
    refine ⟨left₂,ms₁ ++ ms₂,?_,?_⟩
    · rw [waiting₂,waiting₁,List.append_assoc]
    · rw [List.map_append,bytes₁,bytes₂]

theorem Intake.then_quiet {c d e : Ctx} {xs : Bytes} (first : Intake c d xs)
    (second : Quiet d e) : Intake c e xs := by
  have both := first.trans second.intake
  rwa [List.append_nil] at both

theorem onRecv_intake {c c' : Ctx} {data : Bytes} {now : Nat}
    (ran : c.onRecv data now = some c') : Intake c c' data where
  toShuffle := onRecv_shuffle ran
  absorbs := by
    intro before settled left
    obtain ⟨d,ms,same,left',waiting,bytes,_⟩ := onRecv_absorb left data now
    cases same.symm.trans ran
    exact ⟨left',ms,waiting,bytes⟩

theorem disconnect_quiet (c : Ctx) : Quiet c {c with self := c.self.Disconnect} := by
  unfold Session.Disconnect
  split
  · exact ⟨rfl,rfl,fun _ => rfl,rfl,rfl⟩
  · exact .refl c

theorem recvRound_intake {c : Ctx} {ret : RecvRet} {o : Ctx ⊕ Ctx}
    (stepped : c.recvRound ret = some o) (rets : List RecvRet) :
    ∃ data, Intake c (o.elim id id) data ∧
      taken (ret::rets) = data ++ o.elim (fun _ => taken rets) fun _ => [] := by
  cases ret with
  | data chunk now =>
    simp only [recvRound] at stepped
    split at stepped
    · cases stepped
    · split at stepped
      next => cases stepped
      next d ran =>
        have intake := onRecv_intake ran
        split at stepped
        next whole =>
          cases stepped
          exact ⟨chunk,intake,by simp [taken,whole]⟩
        next part =>
          cases stepped
          exact ⟨chunk,intake,by simp [taken,part]⟩
  | eof =>
    cases stepped
    have ended : Quiet c {c with self := {c.self with recvOver := true}} :=
      ⟨rfl,rfl,id,rfl,rfl⟩
    exact ⟨[],(ended.trans (disconnect_quiet _)).intake,rfl⟩
  | intr =>
    cases stepped
    exact ⟨[],(Quiet.refl c).intake,rfl⟩
  | again =>
    cases stepped
    exact ⟨[],Quiet.intake ⟨rfl,rfl,id,rfl,rfl⟩,rfl⟩
  | err errno =>
    cases stepped
    exact ⟨[],Quiet.intake ⟨rfl,rfl,id,rfl,rfl⟩,rfl⟩
  | odd errno =>
    cases stepped
    exact ⟨[],Quiet.intake ⟨rfl,rfl,id,rfl,rfl⟩,rfl⟩

theorem postRecvLoop_intake {rets : List RecvRet} {c c' : Ctx}
    (ran : postRecvLoop rets c = some c') : Intake c c' (taken rets) := by
  induction rets generalizing c with
  | nil => cases ran
  | cons ret rets ih =>
    unfold postRecvLoop at ran
    split at ran
    next => cases ran
    next d stepped =>
      obtain ⟨data,intake,same⟩ := recvRound_intake stepped rets
      rw [same]
      exact intake.trans (ih ran)
    next d stepped =>
      cases ran
      obtain ⟨data,intake,same⟩ := recvRound_intake stepped rets
      rw [same]
      simpa using intake

theorem fetchSend_quiet (c : Ctx) : Quiet c c.fetchSend.2 := by
  unfold fetchSend
  split
  · exact .refl c
  · split
    · exact .refl c
    · split <;> exact ⟨rfl,rfl,id,rfl,rfl⟩

theorem sendRound_quiet {c : Ctx} {m : Message} {ret : SendRet} {o : Ctx ⊕ Ctx}
    (stepped : c.sendRound m ret = some o) : Quiet c (o.elim id id) := by
  cases ret with
  | sent n =>
    simp only [sendRound] at stepped
    split_ifs at stepped <;> cases stepped <;> exact ⟨rfl,rfl,id,rfl,rfl⟩
  | _ => cases stepped; exact ⟨rfl,rfl,id,rfl,rfl⟩

theorem postSendLoop_quiet {rets : List SendRet} {c c' : Ctx}
    (ran : postSendLoop rets c = some c') : Quiet c c' := by
  induction rets generalizing c with
  | nil =>
    have fetched := fetchSend_quiet c
    unfold postSendLoop at ran
    split at ran
    next d same =>
      cases ran
      rwa [same] at fetched
    next => cases ran
  | cons ret rets ih =>
    have fetched := fetchSend_quiet c
    unfold postSendLoop at ran
    split at ran
    next d same =>
      cases ran
      rwa [same] at fetched
    next m d same =>
      rw [same] at fetched
      split at ran
      next => cases ran
      next e stepped => exact (fetched.trans (sendRound_quiet stepped)).trans (ih ran)
      next e stepped =>
        cases ran
        exact fetched.trans (sendRound_quiet stepped)

theorem postSend_quiet {rets : List SendRet} {c c' : Ctx} (ran : c.postSend rets = some c') :
    Quiet c c' := by
  unfold postSend at ran
  split_ifs at ran
  · cases ran
    exact ⟨rfl,rfl,id,rfl,rfl⟩
  · cases ran
    exact .refl c
  · cases ran
    exact .refl c
  · exact postSendLoop_quiet ran

/-- The rest of `Update` may disconnect, and touches nothing that was received. -/
theorem switchStatus_quiet (c : Ctx) (now again : Nat) :
    Quiet c {c with self := (c.self.switchStatus now again).registerHandler} := by
  have checked (s : Session) : (s.checkActivity now again).msgHeader = s.msgHeader ∧
      (s.checkActivity now again).msgRecv = s.msgRecv ∧
      (s.disconnect = true → (s.checkActivity now again).disconnect = true) := by
    unfold Session.checkActivity Session.Disconnect
    split
    · split <;> exact ⟨rfl,rfl,fun _ => by simp_all⟩
    · exact ⟨rfl,rfl,id⟩
  have registered (s : Session) : s.registerHandler.msgHeader = s.msgHeader ∧
      s.registerHandler.msgRecv = s.msgRecv ∧ s.registerHandler.disconnect = s.disconnect := by
    unfold Session.registerHandler
    split <;> exact ⟨rfl,rfl,rfl⟩
  have switched : (c.self.switchStatus now again).msgHeader = c.self.msgHeader ∧
      (c.self.switchStatus now again).msgRecv = c.self.msgRecv ∧
      (c.self.disconnect = true → (c.self.switchStatus now again).disconnect = true) := by
    unfold Session.switchStatus
    split
    · split
      · exact checked _
      · exact checked _
    · exact ⟨rfl,rfl,id⟩
    · simp only [Session.closeSocket]
      split <;> exact ⟨rfl,rfl,id⟩
    · exact ⟨rfl,rfl,id⟩
  obtain ⟨header,recv,disconnect⟩ := registered (c.self.switchStatus now again)
  refine ⟨header.trans switched.1,recv.trans switched.2.1,fun before => ?_,rfl,rfl⟩
  exact disconnect.trans (switched.2.2 before)

theorem takeEvents_quiet (c : Ctx) (sockErr : Nat) :
    Quiet c {c with self := (c.self.takeEvents sockErr).2} := by
  unfold Session.takeEvents
  split <;> exact ⟨rfl,rfl,id,rfl,rfl⟩

/-- A whole `Update` absorbs the bytes that arrive in it. -/
theorem update_intake {c c' : Ctx} {i : UpdateIn} (ran : c.update i = some c') :
    Intake c c' (c.arrived i) := by
  cases locked : i.locked with
  | false =>
    rw [update_skipped c locked] at ran
    cases ran
    simp only [arrived,locked,Bool.not_false,Bool.true_or,if_true]
    exact (Quiet.refl c).intake
  | true =>
    have taken_ := takeEvents_quiet c i.sockErr
    unfold update at ran
    simp only [locked,Bool.not_true,Bool.false_eq_true,if_false] at ran
    split at ran
    next => cases ran
    next d received =>
      split at ran
      next => cases ran
      next e sent =>
        cases ran
        have intake : Intake {c with self := (c.self.takeEvents i.sockErr).2} d (c.arrived i) := by
          unfold postRecv at received
          simp only [arrived,locked,Bool.not_true,Bool.false_or]
          split at received
          next skip =>
            cases received
            rw [if_pos skip]
            exact (Quiet.refl _).intake
          next go =>
            rw [if_neg go]
            exact postRecvLoop_intake received
        have marked : Quiet e {e with self :=
            if (c.self.takeEvents i.sockErr).1 then e.self.setSocketStatus .error else e.self} := by
          split <;> exact ⟨rfl,rfl,id,rfl,rfl⟩
        have whole := taken_.intake.trans (intake.then_quiet (postSend_quiet sent))
        exact (whole.then_quiet marked).then_quiet (switchStatus_quiet _ i.now i.again)

end Ctx

end Pworld.Net
