import AndroidKernel.Lib.Segments
import Mathlib.Data.UInt

/-!
# Reassembly of IPv4 datagrams

`ip_fragment.c` keeps the fragments of a datagram in a queue. `ip_frag_queue` puts a fragment in its
place, cuts away what overlaps, and calls `ip_frag_reasm` when the datagram is complete.

A fragment in the queue is its offset and its bytes. Whether a buffer operation fails, and whether
the peer has sent too many other datagrams since, are inputs of a call.
-/

namespace AndroidKernel.IpFrag

def enoent : ℤ := 2
def e2big : ℤ := 7
def enomem : ℤ := 12
def einval : ℤ := 22
def etimedout : ℤ := 110
def einprogress : ℤ := 115

/-- A fragment in the queue, with the length of the header it came with. -/
structure Frag where
  offset : ℕ
  ihl : ℕ
  data : List UInt8
  deriving DecidableEq, Repr

/-- `struct ipq`. The flags of `last_in` are `first`, `last` and `complete`. -/
structure Queue where
  fragments : List Frag
  len : ℕ
  meat : ℤ
  first : Bool
  last : Bool
  complete : Bool
  deriving DecidableEq, Repr

/-- A fragment as it is received: the offset in units of eight bytes, the flag `IP_MF`, the length
of the header and what follows it. -/
structure Skb where
  fragOff : ℕ
  mf : Bool
  ihl : ℕ
  payload : List UInt8
  fragComplete : Bool
  deriving DecidableEq, Repr

/-- What a call finds: whether the peer is too far ahead, whether the timer is pending, and whether
each of the buffer operations succeeds. -/
structure Env where
  tooFar : Bool
  timer : Bool
  pull : Bool
  trim : Bool
  pullHead : Bool
  pullNext : Bool
  clone : Bool
  expand : Bool
  alloc : Bool
  deriving DecidableEq, Repr

variable (env : Env) (skb : Skb)

/-- The offset in bytes. -/
def Skb.offset : ℕ := skb.fragOff * 8

/-- The end of the fragment, at a multiple of eight if more fragments follow. -/
def Skb.stop : ℕ :=
  if skb.mf then (skb.offset + skb.payload.length) / 8 * 8 else skb.offset + skb.payload.length

namespace Queue

/-- A queue without fragments. -/
def init : Queue := ⟨[], 0, 0, false, false, false⟩

/-- `ipq_kill`. -/
def kill (q : Queue) : Queue := { q with complete := true }

end Queue

/-- `ip_frag_too_far` and `ip_frag_reinit`: the queue is as before, or empty again; or it is
killed, with an error. -/
def startOver (q : Queue) : Option ℤ × Queue :=
  if !skb.fragComplete && env.tooFar && !q.fragments.isEmpty then
    if env.timer then (none, .init) else (some (-etimedout), q.kill)
  else (none, q)

/-- The end of the datagram, as far as the fragment tells it. A fragment that contradicts what is
known is an error. -/
def checkEnd (q : Queue) : Option Queue :=
  if !skb.mf then
    if skb.stop < q.len ∨ q.last ∧ skb.stop ≠ q.len then none
    else some { q with last := true, len := skb.stop }
  else if skb.stop > q.len then
    if q.last then none else some { q with len := skb.stop }
  else some q

/-- How far the fragment before reaches into the one at the given offset. -/
def overlap (front : List Frag) (offset : ℕ) : ℕ :=
  match front.getLast? with
  | none => 0
  | some prev => prev.offset + prev.data.length - offset

/-- The loop over the fragments behind: those that the new one covers are dropped, and one that it
reaches into loses its head, if that does not fail. Returns what is left, and how many bytes are
gone. -/
def eatNext (pullNext : Bool) (stop : ℕ) : List Frag → Bool × List Frag × ℕ
  | [] => (true, [], 0)
  | next :: back =>
    if next.offset < stop then
      let i := stop - next.offset
      if i < next.data.length then
        if pullNext then
          (true, { next with offset := next.offset + i, data := next.data.drop i } :: back, i)
        else (false, next :: back, 0)
      else
        let r := eatNext pullNext stop back
        (r.1, r.2.1, r.2.2 + next.data.length)
    else (true, next :: back, 0)

/-- `ip_frag_queue` puts the fragment in its place. -/
def place (ihl offset stop : ℕ) (data : List UInt8) (q : Queue) : Option ℤ × Queue :=
  let front := q.fragments.takeWhile (·.offset < offset)
  let back := q.fragments.dropWhile (·.offset < offset)
  let i := overlap front offset
  if 0 < i ∧ stop ≤ offset + i then (some (-einval), q)
  else if 0 < i ∧ env.pullHead = false then (some (-enomem), q)
  else
    let r := eatNext env.pullNext stop back
    if r.1 then
      (none, { q with
        fragments := front ++ ⟨offset + i, ihl, data.drop i⟩ :: r.2.1
        meat := q.meat - r.2.2 + (data.drop i).length
        first := q.first || offset + i = 0 })
    else (some (-enomem), { q with fragments := front ++ r.2.1, meat := q.meat - r.2.2 })

/-- `ip_frag_queue` up to the insertion: the error, or none if the fragment is in the queue. -/
def insert (q : Queue) : Option ℤ × Queue :=
  if q.complete then (some (-enoent), q)
  else
    match startOver env skb q with
    | (some err, q) => (some err, q)
    | (none, q) =>
      match checkEnd skb q with
      | none => (some (-einval), q)
      | some q =>
        if skb.stop = skb.offset then (some (-einval), q)
        else if !env.pull then (some (-enomem), q)
        else if !env.trim && skb.stop - skb.offset < skb.payload.length then (some (-enomem), q)
        else place env skb.ihl skb.offset skb.stop (skb.payload.take (skb.stop - skb.offset)) q

/-- `ip_frag_reasm`: the datagram's payload or the error. The fragment just received becomes the
head of the list unless it is the first, which takes a clone of it; the bytes and their order stay.
-/
def reasm (prev : Bool) (q : Queue) : Except ℤ (List UInt8) × Queue :=
  if prev && !env.clone then (.error (-enomem), q.kill)
  else if (q.fragments.head?.elim 0 Frag.ihl) + q.len > 65535 then (.error (-e2big), q.kill)
  else if !env.expand || !env.alloc then (.error (-enomem), q.kill)
  else (.ok (q.fragments.flatMap Frag.data), { q.kill with fragments := [] })

/-- The test before `ip_frag_reasm`: `last_in` has the first and the last fragment and nothing else,
and there are as many bytes as the datagram has. -/
def Queue.ready (q : Queue) : Bool := q.first && q.last && !q.complete && q.meat == q.len

/-- What becomes of a fragment: it is rejected, waits in the queue, or completes the datagram, which
is delivered or fails. -/
inductive Verdict
  | rejected (err : ℤ)
  | queued
  | delivered (payload : List UInt8)
  | failed (err : ℤ)
  deriving DecidableEq, Repr

/-- What `ip_frag_queue` returns. -/
def Verdict.ret : Verdict → ℤ
  | .rejected err => err
  | .queued => -einprogress
  | .delivered _ => 0
  | .failed err => err

/-- `ip_frag_queue`. There is a fragment before the new one unless that is the first. -/
def ipFragQueue (q : Queue) : Verdict × Queue :=
  match insert env skb q with
  | (some err, q) => (.rejected err, q)
  | (none, q) =>
    if q.ready then
      match reasm env (q.fragments.any (·.offset < skb.offset)) q with
      | (.error err, q) => (.failed err, q)
      | (.ok payload, q) => (.delivered payload, q)
    else (.queued, q)

end AndroidKernel.IpFrag
