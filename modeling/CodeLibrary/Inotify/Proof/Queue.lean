import CodeLibrary.Inotify.Events
import CodeLibrary.Inotify.Queue

/-!
# What goes into the queue comes out of it

* `Holds`: the entries from `head` on hold some records, and `tail` is the last of them.
* `enqueue_spec`, `dequeue_spec`: one entry is put behind the others, or the first is taken.
* `readBody_spec`: a round of `read_events` puts the next record of the buffer in the queue.
* `read_spec`, `handle_spec`: the calls, with what holds between their rounds.
* `queue_delivers`: after any calls the records that left the queue, and then those in it, are the
  records that were delivered, byte for byte and in their order; `handle_events` hands out all that
  are in it, and `queue_dequeue` the first.
-/

namespace Inotify

open NodeMem

/-- The queue is a chain of entries with the records of `l`, up to its tail. -/
structure Holds (q : Queue) (l : List (Nat × List UInt8)) : Prop where
  chain : Chain QueueEntry.next QueueEntry.inotEv q.mem q.head l
  last : q.tail = (addrs l).getLast?.getD 0

/-! ## One entry -/

theorem Holds.head_eq_zero_iff {q : Queue} {l : List (Nat × List UInt8)} (h : Holds q l) :
    q.head = 0 ↔ l = [] := by
  have hchain := h.chain
  cases l with
  | nil => exact iff_of_true hchain rfl
  | cons e l =>
    obtain ⟨hp, ha, -⟩ := hchain
    simp [hp, ha]

theorem Holds.tail_eq_zero_iff {q : Queue} {l : List (Nat × List UInt8)} (h : Holds q l) :
    q.tail = 0 ↔ l = [] := by
  have hchain := h.chain
  rw [h.last]
  rcases List.eq_nil_or_concat' l with rfl | ⟨l, ⟨t, x⟩, rfl⟩
  · simp [addrs]
  · have ht := (hchain.mem (show t ∈ addrs (l ++ [(t, x)]) by simp)).1
    simpa [addrs] using ht

theorem Holds.null {q : Queue} {l : List (Nat × List UInt8)} (h : Holds q l) :
    q.head = 0 ↔ q.tail = 0 := h.head_eq_zero_iff.trans h.tail_eq_zero_iff.symm

/-- What happens at other addresses does not touch the queue. -/
theorem Holds.frame {q : Queue} {l : List (Nat × List UInt8)} (h : Holds q l)
    {mem : Mem QueueEntry} (hmem : ∀ a ∈ addrs l, mem a = q.mem a) :
    Holds { q with mem := mem } l :=
  ⟨h.chain.frame hmem, h.last⟩

/-- A free address is not in the queue. -/
theorem Holds.not_mem {q : Queue} {l : List (Nat × List UInt8)} (h : Holds q l) {p : Nat}
    (hp : q.mem p = none) : p ∉ addrs l := by
  intro hm
  have := (h.chain.mem hm).2
  rw [hp] at this
  cases this

theorem enqueue_spec {q : Queue} {l : List (Nat × List UInt8)} (h : Holds q l) {d : Nat}
    {e : QueueEntry} (he : q.mem d = some e) (hd : d ≠ 0) (hdl : d ∉ addrs l) :
    ∃ q', queueEnqueue d q = some q' ∧ Holds q' (l ++ [(d, e.inotEv)]) ∧
      ∀ a, a ∉ addrs l → a ≠ d → q'.mem a = q.mem a := by
  have hchain := h.chain
  have htail := h.tail_eq_zero_iff
  simp only [queueEnqueue, he, Option.bind_eq_bind, Option.bind_some]
  rcases List.eq_nil_or_concat' l with rfl | ⟨l, ⟨t, x⟩, rfl⟩
  · rw [if_neg (not_not.2 (htail.2 rfl))]
    refine ⟨_, rfl, ⟨⟨rfl, hd, _, Mem.set_same _ _ _, rfl, rfl⟩, rfl⟩, fun a _ ha => ?_⟩
    exact Mem.set_ne ha _
  · have ht : q.tail = t := by
      rw [h.last]
      simp [addrs]
    have htd : t ≠ d := fun he => hdl (by simp [he])
    obtain ⟨-, ht0, n, hn, hx, -⟩ := hchain.of_append
    have hframe : Chain QueueEntry.next QueueEntry.inotEv (q.mem.set d { e with next := 0 }) q.head
        (l ++ [(t, x)]) :=
      hchain.frame fun a ha => Mem.set_ne (ne_of_mem_of_not_mem ha hdl) _
    have hlast := hframe.snoc (n := { n with next := d }) (Mem.set_same _ _ _) hd hdl rfl rfl hx
    rw [if_pos (ht ▸ ht0), ht, Mem.set_ne htd, hn]
    refine ⟨_, rfl, ⟨?_, ?_⟩, fun a hal had => ?_⟩
    · rw [List.append_assoc]
      exact hlast
    · simp [addrs]
    · have hat : a ≠ t := fun he => hal (by simp [he])
      exact (Mem.set_ne hat _).trans (Mem.set_ne had _)

theorem dequeue_empty {q : Queue} (h : Holds q []) : queueDequeue q = some (q, 0) := by
  have h0 := h.head_eq_zero_iff.2 rfl
  simp only [queueDequeue, h0, ne_eq, not_true, if_false]
  rfl

theorem dequeue_spec {q : Queue} {l : List (Nat × List UInt8)} {a : Nat} {x : List UInt8}
    (h : Holds q ((a, x) :: l)) :
    ∃ q' e, queueDequeue q = some (q', a) ∧ a ≠ 0 ∧ q'.mem a = some e ∧ e.inotEv = x ∧
      Holds q' l ∧ a ∉ addrs l := by
  have hal := (List.nodup_cons.1 h.chain.nodup).1
  obtain ⟨hp, ha, e, he, hx, hnext⟩ := h.chain
  have hframe :
      Chain QueueEntry.next QueueEntry.inotEv (q.mem.set a { e with next := 0 }) e.next l :=
    hnext.frame fun b hb => Mem.set_ne (ne_of_mem_of_not_mem hb hal) _
  simp only [queueDequeue, hp, he, Option.bind_eq_bind, Option.bind_some]
  rw [if_pos ha]
  refine ⟨_, _, rfl, ha, Mem.set_same _ _ _, hx, ⟨hframe, ?_⟩, hal⟩
  cases l with
  | nil =>
    have h0 : e.next = 0 := hnext
    simp [h0, addrs]
  | cons b l =>
    obtain ⟨hb, hb0, -⟩ := hnext
    have hne : e.next ≠ 0 := hb ▸ hb0
    simp only [hne, if_false]
    rw [h.last, addrs_cons, addrs_cons, List.getLast?_cons_cons]

/-! ## One record -/

theorem lenAt_some {buffer : List UInt8} {i n : Nat} (h : lenAt buffer i = some n) :
    i + 16 ≤ buffer.length := by
  rw [lenAt] at h
  split at h
  · rename_i a b c d hl
    have hlen := congrArg List.length hl
    simp only [List.length_take, List.length_drop, List.length_cons, List.length_nil] at hlen
    omega
  · cases h

/-- The `len` of a record in the buffer. -/
theorem lenAt_append {bytes : List UInt8} {n : Nat} (h : lenAt bytes 0 = some n)
    (pre post : List UInt8) : lenAt (pre ++ (bytes ++ post)) pre.length = some n := by
  have hlen := lenAt_some h
  have hdrop : (pre ++ (bytes ++ post)).drop (pre.length + 12) = bytes.drop 12 ++ post := by
    rw [← List.drop_drop, List.drop_left, List.drop_append_of_le_length (by omega)]
  have htake : (bytes.drop 12 ++ post).take 4 = (bytes.drop (0 + 12)).take 4 := by
    rw [List.take_append_of_le_length (by rw [List.length_drop]; omega)]
  rw [lenAt, hdrop, htake]
  exact h

theorem bytesAt_append (pre bytes post : List UInt8) :
    bytesAt (pre ++ (bytes ++ post)) pre.length bytes.length = some bytes := by
  rw [bytesAt, if_pos (by simp), List.drop_left, List.take_left]

/-- The `len` of a record. -/
theorem Record.len (r : Record) :
    ∃ n, lenAt r.bytes 0 = some n ∧ r.bytes.length = offsetofName + n := by
  obtain ⟨n, hn, hlen⟩ := Option.map_eq_some_iff.1 r.whole
  exact ⟨n, hn, hlen.symm⟩

theorem Record.length_pos (r : Record) : 0 < r.bytes.length := by
  obtain ⟨n, -, hlen⟩ := r.len
  rw [hlen, offsetofName]
  omega

/-- A round of `read_events`, at a whole record. -/
theorem readBody_spec {s : ReadState} {l : List (Nat × List UInt8)} (h : Holds s.q l)
    (pre post : List UInt8) {r : Record} (hi : s.bufferI = pre.length) {p : Nat} {ps : List Nat}
    (hps : s.mallocs = p :: ps) (hp : p ≠ 0) (hfree : s.q.mem p = none) :
    ∃ q', readBody (pre ++ (r.bytes ++ post)) s =
        some ⟨pre.length + r.bytes.length, s.count + 1, ps, q'⟩ ∧
      Holds q' (l ++ [(p, r.bytes)]) ∧ ∀ a, a ∉ addrs l → a ≠ p → q'.mem a = s.q.mem a := by
  obtain ⟨n, hn, hlen⟩ := r.len
  have hpl := h.not_mem hfree
  have hsize : offsetofInotEv + r.bytes.length ≤ offsetofInotEvName + n := by
    rw [hlen, offsetofInotEv, offsetofName, offsetofInotEvName]
    omega
  have hnew : Holds { s.q with mem := s.q.mem.set p ⟨0, r.bytes, offsetofInotEvName + n⟩ } l :=
    h.frame fun a ha => Mem.set_ne (ne_of_mem_of_not_mem ha hpl) _
  obtain ⟨q', henq, hq', hmem⟩ := enqueue_spec hnew (Mem.set_same _ _ _) hp hpl
  refine ⟨q', ?_, hq', fun a hal hap => ?_⟩
  · simp only [readBody, hi, hps, lenAt_append hn, ← hlen, bytesAt_append, moveEvent, hsize,
      List.head?_cons, List.tail_cons, Option.bind_eq_bind, Option.bind_some, if_true, henq]
    rfl
  · rw [hmem a hal hap]
    exact Mem.set_ne hap _

/-! ## The calls -/

/-- `read_events` after the records `taken` of its buffer, put at the addresses `used`. -/
structure ReadAt (l : List (Nat × List UInt8)) (records : List Record) (mallocs : List Nat)
    (s : ReadState) (taken rest : List Record) (used : List Nat) : Prop where
  records : records = taken ++ rest
  mallocs : mallocs = used ++ s.mallocs
  length : used.length = taken.length
  bufferI : s.bufferI = (taken.flatMap (·.bytes)).length
  count : s.count = taken.length
  holds : Holds s.q (l ++ used.zip (taken.map (·.bytes)))
  free : ∀ p ∈ s.mallocs, s.q.mem p = none

/-- `read_events` between its rounds. -/
def Reading (l : List (Nat × List UInt8)) (records : List Record) (mallocs : List Nat)
    (s : ReadState) : Prop :=
  ∃ taken rest used, ReadAt l records mallocs s taken rest used

/-- `handle_events` between its rounds, when it has handled the first of the records. -/
def Handling (l : List (Nat × List UInt8)) (s : Queue × List (List UInt8)) : Prop :=
  ∃ l₁ l₂, l = l₁ ++ l₂ ∧ s.2 = l₁.map Prod.snd ∧ Holds s.1 l₂

/-- A round of `read_events`, or its end. -/
theorem readStep_spec {l : List (Nat × List UInt8)} {records : List Record} {mallocs : List Nat}
    (hlen : mallocs.length = records.length) (hnodup : mallocs.Nodup)
    (hpos : ∀ p ∈ mallocs, p ≠ 0) (s : ReadState) (hs : Reading l records mallocs s) :
    Sum.elim
      (fun s' => Reading l records mallocs s' ∧
        (records.flatMap (·.bytes)).length - s'.bufferI <
          (records.flatMap (·.bytes)).length - s.bufferI)
      (fun r => ∃ q', r = some (q', (records.length : Int)) ∧
        Holds q' (l ++ mallocs.zip (records.map (·.bytes))))
      (readStep (records.flatMap (·.bytes)) s) := by
  obtain ⟨taken, rest, used, hrec, hmal, hused, hi, hcount, hholds, hfree⟩ := hs
  have hbuffer : records.flatMap (·.bytes) =
      taken.flatMap (·.bytes) ++ rest.flatMap (·.bytes) := by
    rw [hrec, List.flatMap_append]
  cases rest with
  | nil =>
    have hnil : s.mallocs = [] := by
      rw [hrec, hmal, List.append_nil, List.length_append] at hlen
      exact List.eq_nil_of_length_eq_zero (by omega)
    rw [readStep, if_neg (by rw [hbuffer, hi]; simp)]
    rw [List.append_nil] at hrec
    rw [hnil, List.append_nil] at hmal
    exact ⟨s.q, by rw [hcount, hrec], by rw [hmal, hrec]; exact hholds⟩
  | cons r rest =>
    obtain ⟨p, ps, hps⟩ : ∃ p ps, s.mallocs = p :: ps := by
      cases hm : s.mallocs with
      | nil =>
        rw [hm, List.append_nil] at hmal
        rw [hrec, hmal, List.length_append, List.length_cons] at hlen
        omega
      | cons p ps => exact ⟨p, ps, rfl⟩
    have hp : p ≠ 0 := hpos p (by rw [hmal, hps]; simp)
    have hfreep := hfree p (by rw [hps]; exact List.mem_cons_self)
    rw [List.flatMap_cons] at hbuffer
    obtain ⟨q', hbody, hholds', hmem⟩ :=
      readBody_spec hholds _ (rest.flatMap (·.bytes)) (r := r) hi hps hp hfreep
    have hr := r.length_pos
    have hlt : s.bufferI < (records.flatMap (·.bytes)).length := by
      rw [hbuffer, hi, List.length_append, List.length_append]
      omega
    rw [readStep, if_pos hlt, hbuffer, hbody]
    refine ⟨⟨taken ++ [r], rest, used ++ [p], ?_, ?_, ?_, ?_, ?_, ?_, ?_⟩, ?_⟩
    · rw [hrec, List.append_assoc, List.singleton_append]
    · rw [hmal, hps, List.append_assoc, List.singleton_append]
    · rw [List.length_append, List.length_append, hused]
      rfl
    · simp
    · rw [List.length_append, hcount]
      rfl
    · rw [List.map_append, List.zip_append (by rw [List.length_map, hused]), ← List.append_assoc]
      exact hholds'
    · intro a ha
      rw [hmal, hps] at hnodup
      have hsep := List.nodup_append.1 hnodup
      have hap : a ≠ p := fun he => (List.nodup_cons.1 hsep.2.1).1 (he ▸ ha)
      have hfreea := hfree a (by rw [hps]; exact List.mem_cons_of_mem p ha)
      exact (hmem a (hholds.not_mem hfreea) hap).trans hfreea
    · rw [List.length_append, List.length_append, hi]
      simp only
      omega

/-- A round of `handle_events`. -/
theorem handleStep_spec {l : List (Nat × List UInt8)} (s : Queue × List (List UInt8))
    (hs : Handling l s) :
    Sum.elim (fun s' => Handling l s' ∧ l.length - s'.2.length < l.length - s.2.length)
      (fun r => ∃ q', r = some (q', l.map Prod.snd) ∧ Holds q' []) (handleStep s) := by
  obtain ⟨q, handled⟩ := s
  obtain ⟨l₁, l₂, hl, hhandled, hq⟩ := hs
  dsimp only at hhandled hq
  have hempty := hq.head_eq_zero_iff
  cases l₂ with
  | nil =>
    rw [handleStep, if_pos (by rw [queueEmpty, hempty.2 rfl]; rfl)]
    rw [List.append_nil] at hl
    exact ⟨q, by rw [hhandled, hl], hq⟩
  | cons e l₂ =>
    obtain ⟨a, x⟩ := e
    obtain ⟨q', e, hdeq, -, he, hx, hq', hal⟩ := dequeue_spec hq
    have hne : q.head ≠ 0 := fun h0 => absurd (hempty.1 h0) (List.cons_ne_nil _ _)
    rw [handleStep, if_neg (by rw [queueEmpty, beq_iff_eq]; exact hne), hdeq]
    dsimp only
    rw [he]
    refine ⟨⟨l₁ ++ [(a, x)], l₂, ?_, ?_, ?_⟩, ?_⟩
    · rw [hl, List.append_assoc, List.singleton_append]
    · simp [hhandled, hx]
    · exact hq'.frame fun b hb => Mem.free_ne (ne_of_mem_of_not_mem hb hal)
    · simp only [hl, hhandled, List.length_append, List.length_map, List.length_cons]
      omega

section
variable {q : Queue} {l : List (Nat × List UInt8)} (h : Holds q l)
include h

/-- `read_events` puts the records in the queue, in their order, and returns how many they are. -/
theorem read_spec {records : List Record} {mallocs : List Nat}
    (hlen : mallocs.length = records.length) (hnodup : mallocs.Nodup)
    (hnew : ∀ p ∈ mallocs, p ≠ 0 ∧ q.mem p = none) :
    (∃ q', ReadEventsReturns q (records.flatMap (·.bytes)) mallocs
        (some (q', (records.length : Int))) ∧
      Holds q' (l ++ mallocs.zip (records.map (·.bytes)))) ∧
    ∀ s, Loop.Visits (readStep (records.flatMap (·.bytes))) ⟨0, 0, mallocs, q⟩ s →
      ∃ l', Holds s.q l' := by
  have hstart : Reading l records mallocs ⟨0, 0, mallocs, q⟩ := by
    refine ⟨[], records, [], rfl, rfl, rfl, rfl, rfl, ?_, fun p hp => (hnew p hp).2⟩
    simpa using h
  have hstep := readStep_spec (l := l) hlen hnodup fun p hp => (hnew p hp).1
  refine ⟨?_, fun s hs => ?_⟩
  · obtain ⟨r, hr, q', rfl, hq'⟩ := Loop.total_rule
      (fun s => (records.flatMap (·.bytes)).length - s.bufferI) hstart hstep
    exact ⟨q', hr, hq'⟩
  · have hinv := hs.invariant hstart fun a b ha hab => by
      have := hstep a ha
      rw [hab] at this
      exact this.1
    obtain ⟨taken, rest, used, hinv⟩ := hinv
    exact ⟨_, hinv.holds⟩

/-- `handle_events` takes all records off the queue, in their order. -/
theorem handle_spec :
    (∃ q', HandleEventsReturns q (some (q', l.map Prod.snd)) ∧ Holds q' []) ∧
    ∀ s, Loop.Visits handleStep (q, []) s → ∃ l', Holds s.1 l' := by
  have hstart : Handling l (q, []) := ⟨[], l, rfl, rfl, h⟩
  refine ⟨?_, fun s hs => ?_⟩
  · obtain ⟨r, hr, q', rfl, hq'⟩ := Loop.total_rule
      (fun s : Queue × List (List UInt8) => l.length - s.2.length) hstart handleStep_spec
    exact ⟨q', hr, hq'⟩
  · have hinv := hs.invariant hstart fun a b ha hab => by
      have := handleStep_spec a ha
      rw [hab] at this
      exact this.1
    obtain ⟨-, l₂, -, -, hq⟩ := hinv
    exact ⟨l₂, hq⟩

theorem dequeueRecord_spec : ∃ q' l', dequeueRecord q = some (q', (l.map Prod.snd).take 1) ∧
    Holds q' l' ∧ l' = l.tail := by
  cases l with
  | nil =>
    refine ⟨q, [], ?_, h, rfl⟩
    simp only [dequeueRecord, dequeue_empty h, Option.bind_eq_bind, Option.bind_some]
    rfl
  | cons e l =>
    obtain ⟨a, x⟩ := e
    obtain ⟨q', e, hdeq, ha, he, hx, hq', -⟩ := dequeue_spec h
    refine ⟨q', l, ?_, hq', rfl⟩
    simp only [dequeueRecord, hdeq, Option.bind_eq_bind, Option.bind_some, he, hx]
    rw [if_neg ha]
    rfl

end

/-! ## Runs -/

/-- The number a call returns, for `read_events` that of the records in its buffer. -/
def QueueCall.number : QueueCall → Option Int
  | .read records _ => some records.length
  | .readFails r => some r
  | _ => none

/-- The records a call takes from the queue, of those that are in it. -/
def QueueCall.takes : QueueCall → List (List UInt8) → List (List UInt8)
  | .dequeue, records => records.take 1
  | .handle, records => records
  | _, _ => []

/-- The queues a call goes through between its rounds. -/
def QueueCall.Through (q : Queue) : QueueCall → Queue → Prop
  | .read records mallocs, q' =>
    ∃ s, Loop.Visits (readStep (records.flatMap (·.bytes))) ⟨0, 0, mallocs, q⟩ s ∧ s.q = q'
  | .handle, q' => ∃ s, Loop.Visits handleStep (q, []) s ∧ s.1 = q'
  | _, q' => q' = q

/-- What a call comes to: it returns, with no access out of bounds, and takes its records from the
queue; these and those in it then are those before it and those it delivered, and the queue was
well formed throughout. -/
structure CallOk (c : QueueCall) (q q' : Queue) (l l' : List (Nat × List UInt8)) : Prop where
  returns : ∀ r, c.Returns q r ↔ r = some (q', c.number, c.takes (l.map Prod.snd))
  holds : Holds q' l'
  records : l.map Prod.snd ++ c.delivers = c.takes (l.map Prod.snd) ++ l'.map Prod.snd
  through : ∀ q₁, c.Through q q₁ → ∃ l₁, Holds q₁ l₁

theorem call_spec {q : Queue} {l : List (Nat × List UInt8)} (h : Holds q l) {c : QueueCall}
    (hc : c.Possible q) : ∃ q' l', CallOk c q q' l l' := by
  cases c with
  | read records mallocs =>
    obtain ⟨-, -, hlen, hnodup, hnew⟩ := hc
    obtain ⟨⟨q', hret, hq'⟩, hthrough⟩ := read_spec h hlen hnodup hnew
    refine ⟨q', _, fun r => ⟨fun hr => ?_, fun hr => ⟨_, hret, hr⟩⟩, hq', ?_, fun q₁ hq₁ => ?_⟩
    · obtain ⟨a, ha, rfl⟩ := hr
      rw [hret.det ha |>.symm]
      rfl
    · rw [List.map_append, List.map_snd_zip (by simp [hlen])]
      rfl
    · obtain ⟨s, hs, rfl⟩ := hq₁
      exact hthrough s hs
  | readFails n =>
    refine ⟨q, l, fun r => Iff.rfl, h, List.append_nil _, fun q₁ hq₁ => ⟨l, ?_⟩⟩
    have hsame : q₁ = q := hq₁
    rwa [hsame]
  | dequeue =>
    obtain ⟨q', l', hdeq, hq', hl'⟩ := dequeueRecord_spec h
    refine ⟨q', l', fun r => ?_, hq', ?_, fun q₁ hq₁ => ⟨l, ?_⟩⟩
    · rw [QueueCall.Returns, hdeq]
      rfl
    · rw [hl', ← List.drop_one, List.map_drop]
      exact (List.append_nil _).trans (List.take_append_drop 1 _).symm
    · have hsame : q₁ = q := hq₁
      rwa [hsame]
  | handle =>
    obtain ⟨⟨q', hret, hq'⟩, hthrough⟩ := handle_spec h
    refine ⟨q', [], fun r => ⟨fun hr => ?_, fun hr => ⟨_, hret, hr⟩⟩, hq',
      (List.append_nil _).trans (List.append_nil _).symm, fun q₁ hq₁ => ?_⟩
    · obtain ⟨a, ha, rfl⟩ := hr
      rw [hret.det ha |>.symm]
      rfl
    · obtain ⟨s, hs, rfl⟩ := hq₁
      exact hthrough s hs

theorem queueRun_spec {calls : List QueueCall} {q : Queue} {delivered left : List (List UInt8)}
    (hrun : QueueRun calls q delivered left) :
    ∃ l, Holds q l ∧ delivered = left ++ l.map Prod.snd := by
  induction hrun with
  | nil => exact ⟨[], ⟨rfl, rfl⟩, rfl⟩
  | @snoc calls q q' delivered left out c ret _ hc hret ih =>
    obtain ⟨l, hq, hrecords⟩ := ih
    obtain ⟨q₁, l₁, hok⟩ := call_spec hq hc
    cases (hok.returns _).1 hret
    refine ⟨l₁, hok.holds, ?_⟩
    rw [hrecords, List.append_assoc, hok.records, List.append_assoc]

/-- **The queue delivers**: after any calls, the records that left the queue are the first of those
delivered, byte for byte and in their order, and those in it are the others; it is a chain from
`head`, `tail` is the last entry of it, and they are `NULL` together. Each further call returns,
`read_events` the number of its records, and takes what is in the queue (`handle_events`), the first
record of it (`queue_dequeue`), or nothing; and it leaves the queue so between any two of its
rounds. That no `malloc` fails is part of `QueueCall.Possible`. -/
theorem queue_delivers {calls : List QueueCall} {q : Queue} {delivered left : List (List UInt8)}
    (hrun : QueueRun calls q delivered left) :
    ∃ l, Chain QueueEntry.next QueueEntry.inotEv q.mem q.head l ∧
      q.tail = (addrs l).getLast?.getD 0 ∧ (q.head = 0 ↔ q.tail = 0) ∧
      delivered = left ++ l.map Prod.snd ∧
      ∀ c : QueueCall, c.Possible q →
        (∃ q', ∀ r, c.Returns q r ↔ r = some (q', c.number, c.takes (l.map Prod.snd))) ∧
        ∀ q₁, c.Through q q₁ → ∃ l₁, Chain QueueEntry.next QueueEntry.inotEv q₁.mem q₁.head l₁ ∧
          q₁.tail = (addrs l₁).getLast?.getD 0 ∧ (q₁.head = 0 ↔ q₁.tail = 0) := by
  obtain ⟨l, hq, hrecords⟩ := queueRun_spec hrun
  refine ⟨l, hq.chain, hq.last, hq.null, hrecords, fun c hc => ?_⟩
  obtain ⟨q', l', hok⟩ := call_spec hq hc
  refine ⟨⟨q', hok.returns⟩, fun q₁ hq₁ => ?_⟩
  obtain ⟨l₁, h₁⟩ := hok.through q₁ hq₁
  exact ⟨l₁, h₁.chain, h₁.last, h₁.null⟩

/-- An event with a name of one byte, and one without a name. -/
def twoRecords : List Record :=
  [⟨[1, 0, 0, 0, 2, 0, 0, 0, 0, 0, 0, 0, 1, 0, 0, 0, 65], by decide⟩,
    ⟨[1, 0, 0, 0, 0, 128, 0, 0, 0, 0, 0, 0, 0, 0, 0, 0], by decide⟩]

/-- The two events are read and the first is dequeued; then `handle_events` has the second. -/
theorem queue_delivers_twoRecords : ∃ q left q',
    QueueRun [.read twoRecords [8, 9], .dequeue] q (twoRecords.map (·.bytes)) left ∧
      QueueCall.Returns q .handle (some (q', none, (twoRecords.map (·.bytes)).drop 1)) := by
  have hread : QueueCall.Possible queueCreate (.read twoRecords [8, 9]) := by
    refine ⟨by decide, by decide, by decide, by decide, fun p hp => ⟨?_, rfl⟩⟩
    intro h0
    rw [h0] at hp
    exact absurd hp (by decide)
  obtain ⟨l₀, -, -, -, -, hcalls⟩ := queue_delivers QueueRun.nil
  obtain ⟨⟨q₁, hret₁⟩, -⟩ := hcalls (.read twoRecords [8, 9]) hread
  have hrun₁ := QueueRun.nil.snoc hread ((hret₁ _).2 rfl)
  obtain ⟨l₁, -, -, -, hl₁, hcalls₁⟩ := queue_delivers hrun₁
  obtain ⟨⟨q₂, hret₂⟩, -⟩ := hcalls₁ .dequeue trivial
  have hrun₂ := hrun₁.snoc (c := .dequeue) trivial ((hret₂ _).2 rfl)
  obtain ⟨l₂, -, -, -, hl₂, hcalls₂⟩ := queue_delivers hrun₂
  obtain ⟨⟨q₃, hret₃⟩, -⟩ := hcalls₂ .handle trivial
  refine ⟨q₂, _, q₃, hrun₂, (hret₃ _).2 ?_⟩
  -- the first record has left, the second is there
  have h₁ : l₁.map Prod.snd = twoRecords.map (·.bytes) := by
    simpa [QueueCall.takes, QueueCall.delivers] using hl₁.symm
  have h₂ : twoRecords.map (·.bytes) =
      (twoRecords.map (·.bytes)).take 1 ++ l₂.map Prod.snd := by
    rw [h₁] at hl₂
    exact hl₂
  have hrest : (twoRecords.map (·.bytes)).drop 1 = l₂.map Prod.snd :=
    List.append_cancel_left ((List.take_append_drop 1 _).trans h₂)
  rw [hrest]
  rfl

/-! ## The queue as a list of events -/

/-- A number of four bytes. -/
def le32 (bytes : List UInt8) : UInt32 :=
  (bytes.take 4).foldr (fun byte n => byte.toUInt32 + 256 * n) 0

/-- The event of a record. -/
def eventOf (bytes : List UInt8) : InotifyEvent where
  wd := (le32 bytes).toInt32.toInt
  mask := le32 (bytes.drop 4)
  cookie := le32 (bytes.drop 8)
  name := bytes.drop offsetofName

/-- The queue in memory stands for the queue of `s`. -/
def Stands (q : Queue) (s : State) : Prop :=
  ∃ l, Holds q l ∧ s.q = l.map fun e => eventOf e.2

/-- `read_events` on the list of events is `read_events` in memory. -/
theorem readEvents_stands {q : Queue} {s : State} (h : Stands q s) {records : List Record}
    {mallocs : List Nat} (hc : QueueCall.Possible q (.read records mallocs)) {r : Int}
    (hr : 0 < r) :
    ∃ q', QueueCall.Returns q (.read records mallocs)
        (some (q', some (readEvents s r (records.map fun x => eventOf x.bytes)).2, [])) ∧
      Stands q' (readEvents s r (records.map fun x => eventOf x.bytes)).1 := by
  obtain ⟨l, hq, hs⟩ := h
  obtain ⟨-, -, hlen, hnodup, hnew⟩ := hc
  obtain ⟨⟨q', hret, hq'⟩, -⟩ := read_spec hq hlen hnodup hnew
  rw [readEvents, if_neg (Int.not_le.2 hr)]
  refine ⟨q', ⟨_, hret, by simp⟩, _, hq', ?_⟩
  have hzip : (mallocs.zip (records.map (·.bytes))).map (fun e => eventOf e.2) =
      records.map fun x => eventOf x.bytes := by
    have hsnd : (mallocs.zip (records.map (·.bytes))).map Prod.snd = records.map (·.bytes) :=
      List.map_snd_zip (by simp [hlen])
    calc (mallocs.zip (records.map (·.bytes))).map (fun e => eventOf e.2)
        = ((mallocs.zip (records.map (·.bytes))).map Prod.snd).map eventOf := by
          rw [List.map_map]
          rfl
      _ = records.map fun x => eventOf x.bytes := by
          rw [hsnd, List.map_map]
          rfl
  rw [List.map_append, hzip, hs]

/-- So is `handle_events`, and it handles the events of the list. -/
theorem handleEvents_stands {q : Queue} {s : State} (h : Stands q s) :
    ∃ q' out, QueueCall.Returns q .handle (some (q', none, out)) ∧ out.map eventOf = s.q ∧
      Stands q' { s with q := [] } := by
  obtain ⟨l, hq, hs⟩ := h
  obtain ⟨⟨q', hret, hq'⟩, -⟩ := handle_spec hq
  refine ⟨q', l.map Prod.snd, ⟨_, hret, rfl⟩, ?_, [], hq', rfl⟩
  rw [hs, List.map_map]
  rfl

end Inotify
