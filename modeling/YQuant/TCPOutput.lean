/-
# What a socket sends

`TCPSocket::sendAndRecv` offers the whole outbound buffer to the kernel, which may take any prefix
of it or nothing, and then empties the buffer whatever the kernel took.  `lossless_iff_carries` says
when nothing is lost by that: when every `::send` takes all that it is offered.

The users of a socket pass bytes to `send`, which puts them behind those that wait; what has been
passed, what the kernel has taken and what still waits are all kept here (`TCPOutput`), so that
`Lossless` can be said of a state: what was passed is what was taken, followed by what waits.

* `step_lossless_iff`: one step keeps it just when the buffer has room for what is sent, or the
  kernel takes all that waits;
* `lossless_iff_carries`: so a run keeps it in every state exactly if every step of it does.  The
  condition reads the state before the step and what the kernel answers, nothing else.

How often the kernel takes less than it is offered is not said.  A socket whose peer reads slowly
makes it do so, and `short_write_loses` is one such answer.
-/
import YQuant.Lib.Run
import YQuant.TCPSocket

namespace YQuant

/-- What a non-blocking `::send` returns. -/
inductive SendResult where
  | error
  | accepted (n : Nat)
deriving DecidableEq, Repr

/-- The bytes that the kernel takes of those it is offered. -/
def SendResult.taken (r : SendResult) (data : List UInt8) : List UInt8 :=
  match r with
  | .error => []
  | .accepted n => data.take n

/-- A socket, what its users have passed to `send`, and what the kernel has taken. -/
structure TCPOutput where
  tcpSocket : TCPSocket
  passed : List UInt8
  accepted : List UInt8

inductive TCPOutputEvent where
  | send (data : List UInt8)
  /-- `sendAndRecv`, after whose callback `inbound` is left in the receive buffer. -/
  | sendAndRecv (inbound : List UInt8) (result : SendResult)
deriving DecidableEq, Repr

namespace TCPOutput

def init : TCPOutput := ⟨.init, [], []⟩

/-- The end of `sendAndRecv`: there is a call of `::send` if something is queued, and in any case
nothing is queued after it. -/
def sendQueued (s : TCPOutput) (result : SendResult) : TCPOutput :=
  let s := (if 0 < s.tcpSocket.outboundData.length then
    { s with accepted := s.accepted ++ result.taken s.tcpSocket.outboundData } else s)
  { s with tcpSocket := s.tcpSocket.flush }

def step (s : TCPOutput) : TCPOutputEvent → Except Fault TCPOutput
  | .send data => do
    let t ← s.tcpSocket.send data
    .ok { s with
      tcpSocket := t
      passed := s.passed ++ data }
  | .sendAndRecv inbound result =>
    .ok ({ s with tcpSocket := s.tcpSocket.keep inbound }.sendQueued result)

/-- **Nothing is lost**: the kernel has taken a prefix of what was passed to `send`, and the rest
of it is what is queued. -/
def Lossless (s : TCPOutput) : Prop :=
  s.accepted <+: s.passed ∧ s.passed.drop s.accepted.length = s.tcpSocket.outboundData

/-- The buffer has room for what is sent, and the kernel takes everything that is queued. -/
def Carries (s : TCPOutput) : TCPOutputEvent → Prop
  | .send data => s.tcpSocket.outboundData.length + data.length ≤ TCPBufferSize
  | .sendAndRecv _ result =>
    result.taken s.tcpSocket.outboundData = s.tcpSocket.outboundData

variable {s : TCPOutput}

theorem lossless_iff : s.Lossless ↔ s.accepted ++ s.tcpSocket.outboundData = s.passed := by
  constructor
  · rintro ⟨hpre, hrest⟩
    rw [← hrest]
    exact List.prefix_iff_eq_append.mp hpre
  · intro h
    rw [Lossless, ← h]
    exact ⟨List.prefix_append _ _, List.drop_left⟩

/-- What is taken of nothing is nothing. -/
theorem taken_nil (r : SendResult) : r.taken [] = [] := by
  cases r with
  | error => rfl
  | accepted n => exact List.take_nil

/-- Nothing is queued after `sendAndRecv`, and what the kernel took has been sent. -/
theorem sendQueued_eq (s : TCPOutput) (r : SendResult) : s.sendQueued r =
    ⟨s.tcpSocket.flush, s.passed, s.accepted ++ r.taken s.tcpSocket.outboundData⟩ := by
  unfold sendQueued
  dsimp only
  split
  · rfl
  · next hnone =>
    have hnil : s.tcpSocket.outboundData = [] :=
      List.length_eq_zero_iff.mp (Nat.eq_zero_of_not_pos hnone)
    rw [hnil, taken_nil, List.append_nil]

/-- **One step loses nothing** just when the buffer or the kernel carries all of it. -/
theorem step_lossless_iff (h : s.Lossless) (e : TCPOutputEvent) :
    (∃ s', s.step e = .ok s' ∧ s'.Lossless) ↔ s.Carries e := by
  rw [lossless_iff] at h
  cases e with
  | send data =>
    constructor
    · rintro ⟨s', hstep, -⟩
      obtain ⟨t, hsend, -⟩ := bind_ok hstep
      unfold TCPSocket.send at hsend
      split at hsend
      · assumption
      · cases hsend
    · intro hroom
      have hroom' : s.tcpSocket.outboundData.length + data.length ≤ TCPBufferSize := hroom
      refine ⟨_, by rw [step, TCPSocket.send, if_pos hroom', ok_bind], lossless_iff.mpr ?_⟩
      dsimp only
      rw [← List.append_assoc, h]
  | sendAndRecv inbound result =>
    have hqueued : (s.tcpSocket.keep inbound).outboundData = s.tcpSocket.outboundData := rfl
    constructor
    · rintro ⟨s', hstep, hlossless⟩
      cases hstep
      rw [lossless_iff, sendQueued_eq] at hlossless
      -- the new prefix is all of it, so the kernel took all that was left
      have hall : s.accepted ++ result.taken s.tcpSocket.outboundData ++ [] = s.passed := hlossless
      rw [List.append_nil, ← h] at hall
      exact List.append_cancel_left hall
    · intro htaken
      refine ⟨_, rfl, lossless_iff.mpr ?_⟩
      rw [sendQueued_eq]
      have hall : result.taken s.tcpSocket.outboundData = s.tcpSocket.outboundData := htaken
      change s.accepted ++ result.taken s.tcpSocket.outboundData ++ [] = s.passed
      rw [List.append_nil, hall, h]

/-- **A socket loses nothing in any state it reaches, if and only if** the buffer has room for
every `send` and every `::send` takes all that is queued.  The buffer is emptied after a `::send`
whatever its result, so what the kernel does not take at once is gone; there is no second chance
that the condition could leave open. -/
theorem lossless_iff_carries (events : List TCPOutputEvent) :
    (∃ s, events.foldlM step init = .ok s) ∧ Run.Always step Lossless init events ↔
      Run.Through step Carries init events :=
  Run.always_iff_through (fun _ e h (_ : True) => step_lossless_iff h e) ⟨List.nil_prefix, rfl⟩
    fun _ _ => trivial

/-- The kernel takes one byte of three. -/
def shortWrite : List TCPOutputEvent := [.send [1, 2, 3], .sendAndRecv [] (.accepted 1)]

theorem short_write_loses : ¬ ∀ events : List TCPOutputEvent,
    Run.Always step Lossless init events := by
  intro hall
  have hlossless : Lossless ⟨.init, [1, 2, 3], [1]⟩ := (hall shortWrite).of_foldlM rfl
  exact absurd hlossless.2 (by decide)

end TCPOutput

end YQuant
