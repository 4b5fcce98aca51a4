import Mathlib
import Xv6.Fs.Cache
import Xv6.Lib.Chain
import Xv6.Sched.Table

/-!
# The disk drivers

`ide.c` queues the buffers that it is called for, starts one command at a time and sleeps
until the interrupt; `memide.c` does the same at once with a disk in memory.  A process calls
`iderw` with a buffer that it has locked, so nobody else writes to the buffer until the call
is back.
-/

namespace Xv6.Fs

open Xv6.Lib Xv6.Sched Xv6.Fs.Bcache

/-! ## `memide.c` -/

def disksize (size : UInt32) : Nat := size.toNat / 512

/-- `iderw` of `memide.c`; there is no result when it panics. -/
def memIderw (size : UInt32) (disk : Nat → Block) (b : Buffer) :
    Option ((Nat → Block) × Buffer) :=
  if !b.busy then none
  else if b.valid && !b.dirty then none
  else if b.dev ≠ 1 then none
  else if disksize size ≤ b.sector.toNat then none
  else if b.dirty then
    some (Function.update disk b.sector.toNat b.data, { b with dirty := false, valid := true })
  else some (disk, { b with data := disk b.sector.toNat, valid := true })

def serve (size : UInt32) : (Nat → Block) → List Buffer → Option (Nat → Block)
  | disk, [] => some disk
  | disk, b :: bs => (memIderw size disk b).bind fun r => serve size r.1 bs

/-! ## `ide.c` -/

structure Command where
  drive : Bool
  lba : Nat
  /-- The data of `IDE_CMD_WRITE`. -/
  data : Option Block

inductive Device
  | idle
  | busy (c : Command)
  /-- The command is done, and the interrupt is to come. -/
  | done (port : Block)

structure Ide where
  buf : Index → Buffer
  qnext : Index → Option Index
  idequeue : Option Index
  device : Device
  /-- The contents of both drives. -/
  disk : Bool → Nat → Block
  /-- The processes in `iderw`. -/
  waits : Slot → Option Index
  /-- The requests that there have been, as they were made. -/
  requests : List Buffer
  /-- Which request the buffer was last queued for. -/
  ticket : Index → Nat
  started : List Nat
  completed : List Nat
  /-- How many commands the device has carried out. -/
  performed : Nat

namespace Ide

def command (b : Buffer) : Command where
  drive := b.dev.toNat % 2 = 1
  lba := b.sector.toNat % 2 ^ 28
  data := if b.dirty then some b.data else none

def idestart (s : Ide) (i : Index) : Option Ide :=
  match s.device with
  | .idle => some
      { s with
        device := .busy (command (s.buf i))
        started := s.started ++ [s.ticket i] }
  | _ => none

def lastFrom (qnext : Index → Option Index) : Nat → Index → Index
  | 0, i => i
  | n + 1, i =>
    match qnext i with
    | none => i
    | some j => lastFrom qnext n j

def append (s : Ide) (i : Index) : Ide :=
  let s :=
    { s with
      qnext := Function.update s.qnext i none
      requests := s.requests ++ [s.buf i]
      ticket := Function.update s.ticket i s.requests.length }
  match s.idequeue with
  | none => { s with idequeue := some i }
  | some h => { s with qnext := Function.update s.qnext (lastFrom s.qnext NBUF h) (some i) }

/-- `iderw` up to its `sleep`; there is no result when it panics. -/
def iderw (havedisk1 : Bool) (s : Ide) (p : Slot) (i : Index) : Option Ide :=
  let b := s.buf i
  if !b.busy then none
  else if b.valid && !b.dirty then none
  else if b.dev ≠ 0 && !havedisk1 then none
  else
    let t : Ide := { s.append i with waits := Function.update s.waits p (some i) }
    if t.idequeue = some i then t.idestart i else some t

def resume (s : Ide) (p : Slot) : Option Ide :=
  match s.waits p with
  | none => none
  | some i =>
    if (s.buf i).valid && !(s.buf i).dirty then
      some { s with waits := Function.update s.waits p none }
    else some s

def complete (s : Ide) : Option Ide :=
  match s.device with
  | .busy c =>
    let disk := match c.data with
      | some data => Function.update s.disk c.drive (Function.update (s.disk c.drive) c.lba data)
      | none => s.disk
    some { s with
      disk := disk
      device := .done (disk c.drive c.lba)
      performed := s.performed + 1 }
  | _ => none

def finish (s : Ide) (i : Index) (port : Block) : Ide :=
  let b := s.buf i
  { s with
    idequeue := s.qnext i
    buf := Function.update s.buf i
      { b with
        data := if b.dirty then b.data else port
        valid := true
        dirty := false }
    device := .idle
    completed := s.completed ++ [s.ticket i] }

def ideintr (s : Ide) : Option Ide :=
  match s.device with
  | .done port =>
    match s.idequeue with
    | none => some { s with device := .idle }
    | some i =>
      let t := s.finish i port
      match t.idequeue with
      | none => some t
      | some j => t.idestart j
  | _ => none

inductive Event
  /-- The process that has locked the buffer stores into it. -/
  | store (i : Index) (b : Buffer)
  | iderw (p : Slot) (i : Index)
  | resume (p : Slot)
  | complete
  | ideintr

def next (havedisk1 : Bool) (s : Ide) : Event → Option Ide
  | .store i b =>
    if ∀ p, s.waits p ≠ some i then some { s with buf := Function.update s.buf i b } else none
  | .iderw p i =>
    if s.waits p = none ∧ ∀ q, s.waits q ≠ some i then s.iderw havedisk1 p i else none
  | .resume p => s.resume p
  | .complete => s.complete
  | .ideintr => s.ideintr

structure Init (disk : Bool → Nat → Block) (s : Ide) : Prop where
  idequeue : s.idequeue = none
  device : s.device = .idle
  disk : s.disk = disk
  waits : s.waits = fun _ => none
  history : s.requests = [] ∧ s.started = [] ∧ s.completed = [] ∧ s.performed = 0

def machine (havedisk1 : Bool) (disk : Bool → Nat → Block) : Machine Ide Event where
  init := Init disk
  step s e t := s.next havedisk1 e = some t

end Ide

/-! ## What `memide.c` makes of a list of requests -/

section Serve

variable {size : UInt32} {disk disk' : Nat → Block} {b b' : Buffer} {bs : List Buffer}

/-- The driver has something to do for the buffer. -/
structure Todo (b : Buffer) : Prop where
  busy : b.busy = true
  todo : (b.valid && !b.dirty) = false

/-- The buffer is for the disk that `memide.c` has. -/
structure OnMem (size : UInt32) (b : Buffer) : Prop where
  dev : b.dev = 1
  sector : b.sector.toNat < disksize size

theorem memIderw_of_ok (h : Todo b) (hmem : OnMem size b) : memIderw size disk b =
    if b.dirty then
      some (Function.update disk b.sector.toNat b.data, { b with dirty := false, valid := true })
    else some (disk, { b with data := disk b.sector.toNat, valid := true }) := by
  have hsector : ¬ disksize size ≤ b.sector.toNat := Nat.not_le.2 hmem.sector
  simp [memIderw, h.busy, h.todo, hmem.dev, hsector]

theorem serve_append {cs : List Buffer} :
    serve size disk (bs ++ cs) = (serve size disk bs).bind fun d => serve size d cs := by
  induction bs generalizing disk with
  | nil => rfl
  | cons b bs ih =>
    simp only [List.cons_append, serve]
    cases memIderw size disk b with
    | none => rfl
    | some r => exact ih

theorem serve_take_succ {n : Nat} (hn : bs[n]? = some b)
    (hserve : serve size disk (bs.take n) = some disk') :
    serve size disk (bs.take (n + 1)) = (memIderw size disk' b).map Prod.fst := by
  rw [List.take_add_one, hn, serve_append, hserve]
  simp only [Option.toList_some, Option.bind_some, serve]
  cases memIderw size disk' b <;> rfl

theorem disksize_lt (size : UInt32) : disksize size < 2 ^ 28 := by
  have hsize := size.toNat_lt
  unfold disksize
  omega

theorem OnMem.command (h : OnMem size b) : Ide.command b =
    ⟨true, b.sector.toNat, if b.dirty then some b.data else none⟩ := by
  have hlt := Nat.lt_trans h.sector (disksize_lt size)
  simp only [Ide.command, h.dev, Nat.mod_eq_of_lt hlt]
  rfl

end Serve

namespace Ide

variable {size : UInt32} {havedisk1 : Bool} {disk₀ : Bool → Nat → Block} {s t : Ide}
  {q : List Index}

/-! ## The queue -/

theorem lastFrom_eq {qnext : Index → Option Index} {h : Index} {n : Nat} {xs : List Index}
    (hchain : IsChain qnext (qnext h) xs) (hn : xs.length ≤ n) :
    (h :: xs).getLast? = some (lastFrom qnext n h) := by
  induction n generalizing h xs with
  | zero =>
    obtain rfl : xs = [] := List.length_eq_zero_iff.1 (by omega)
    rfl
  | succ n ih =>
    cases xs with
    | nil =>
      have hnone : qnext h = none := hchain
      simp [lastFrom, hnone]
    | cons x xs =>
      obtain ⟨hx, hrest⟩ := hchain
      simp only [lastFrom, hx]
      rw [List.getLast?_cons_cons]
      exact ih hrest (by simpa using hn)

theorem chain_append (hchain : IsChain s.qnext s.idequeue q) (hnodup : q.Nodup) {i : Index}
    (hi : i ∉ q) : IsChain (s.append i).qnext (s.append i).idequeue (q ++ [i]) := by
  have hlink : ∀ j ∈ q, Function.update s.qnext i none j = s.qnext j := by
    intro j hj
    rw [Function.update_of_ne]
    rintro rfl
    exact hi hj
  have hchain' : IsChain (Function.update s.qnext i none) s.idequeue q := hchain.congr hlink
  have hlen : q.length ≤ NBUF := by
    have hcard := List.Nodup.length_le_card hnodup
    simpa using hcard
  unfold append
  cases q with
  | nil =>
    have hnone : s.idequeue = none := hchain
    simp [hnone, Lib.IsChain]
  | cons h xs =>
    have hhead : s.idequeue = some h := hchain.1
    have hlast := lastFrom_eq hchain'.2 (n := NBUF) (by simp at hlen; omega)
    simp only [hhead]
    rw [hhead] at hchain'
    have hmem := List.mem_of_getLast? hlast
    refine hchain'.snoc hlast hnodup hi (Function.update_self ..) ?_ fun y _ hy => ?_
    · rw [Function.update_of_ne, Function.update_self]
      intro heq
      exact hi (heq ▸ hmem)
    · rw [Function.update_of_ne hy]

/-! ## The requests in order -/

def Working (s : Ide) : List Index → Prop
  | [] => s.device = .idle ∧ s.performed = s.completed.length
  | h :: _ =>
    s.device = .busy (command (s.buf h)) ∧ s.performed = s.completed.length ∨
    ∃ port, s.device = .done port ∧ s.performed = s.completed.length + 1 ∧
      ((s.buf h).dirty = false →
        port = s.disk (command (s.buf h)).drive (command (s.buf h)).lba)

def Returns (size : UInt32) (disk : Nat → Block) (requests : List Buffer) (n : Nat)
    (b : Buffer) : Prop :=
  ∃ d r d', serve size disk (requests.take n) = some d ∧ requests[n]? = some r ∧
    memIderw size d r = some (d', b)

/-- The requests so far are for `memide.c`. -/
def AllMem (size : UInt32) (s : Ide) : Prop := ∀ b ∈ s.requests, OnMem size b

structure Ordered (disk₀ : Bool → Nat → Block) (s : Ide) (q : List Index) : Prop where
  chain : IsChain s.qnext s.idequeue q
  nodup : q.Nodup
  tickets : q.map s.ticket = List.range' s.completed.length q.length
  length : s.requests.length = s.completed.length + q.length
  completed : s.completed = List.range s.completed.length
  started : s.started = List.range (s.completed.length + if q = [] then 0 else 1)
  alone : ∀ p p' i, s.waits p = some i → s.waits p' = some i → p = p'
  queued : ∀ i ∈ q, (∃ p, s.waits p = some i) ∧ s.requests[s.ticket i]? = some (s.buf i)
  requests : ∀ b ∈ s.requests, Todo b
  working : Working s q
  disk : ∀ size, s.AllMem size →
    serve size (disk₀ true) (s.requests.take s.performed) = some (s.disk true)
  back : ∀ p i, s.waits p = some i → i ∉ q → s.ticket i < s.completed.length ∧
    ∀ size, s.AllMem size → Returns size (disk₀ true) s.requests (s.ticket i) (s.buf i)

theorem Returns.append {disk : Nat → Block} {requests rs : List Buffer} {n : Nat} {b : Buffer}
    (h : Returns size disk requests n b) : Returns size disk (requests ++ rs) n b := by
  obtain ⟨d, r, d', hserve, hr, hmem⟩ := h
  have hn : n < requests.length := (List.getElem?_eq_some_iff.1 hr).1
  refine ⟨d, r, d', ?_, ?_, hmem⟩
  · rwa [List.take_append_of_le_length (Nat.le_of_lt hn)]
  · rwa [List.getElem?_append_left hn]

theorem Ordered.mem_requests (h : Ordered disk₀ s q) {i : Index} (hi : i ∈ q) :
    s.buf i ∈ s.requests :=
  List.mem_of_getElem? (h.queued i hi).2

theorem Ordered.performed_le (h : Ordered disk₀ s q) : s.performed ≤ s.requests.length := by
  have hlen := h.length
  have hwork := h.working
  cases q with
  | nil =>
    obtain ⟨_, hperf⟩ := hwork
    simp at hlen
    omega
  | cons i q =>
    simp at hlen
    rcases hwork with ⟨_, hperf⟩ | ⟨_, _, hperf, _⟩ <;> omega

theorem Ordered.head_ticket {i : Index} (h : Ordered disk₀ s (i :: q)) :
    s.ticket i = s.completed.length := by
  have htickets := h.tickets
  simp only [List.map_cons, List.length_cons, List.range'_succ] at htickets
  exact (List.cons.inj htickets).1

theorem Ordered.store (h : Ordered disk₀ s q) {i : Index} (hi : ∀ p, s.waits p ≠ some i)
    (b : Buffer) : Ordered disk₀ { s with buf := Function.update s.buf i b } q := by
  have hne : ∀ j ∈ q, j ≠ i := by
    rintro j hj rfl
    obtain ⟨p, hp⟩ := (h.queued j hj).1
    exact hi p hp
  have hbuf : ∀ j ∈ q, Function.update s.buf i b j = s.buf j := fun j hj =>
    Function.update_of_ne (hne j hj) ..
  refine ⟨h.chain, h.nodup, h.tickets, h.length, h.completed, h.started, h.alone,
    fun j hj => ?_, h.requests, ?_, h.disk, fun p j hp hj => ?_⟩
  · simp only [hbuf j hj]
    exact h.queued j hj
  · have hwork := h.working
    cases q with
    | nil => exact hwork
    | cons j q =>
      simp only [Working, hbuf j List.mem_cons_self]
      exact hwork
  · have hji : j ≠ i := by
      rintro rfl
      exact hi p hp
    simp only [Function.update_of_ne hji]
    exact h.back p j hp hj

theorem append_spec (s : Ide) (i : Index) :
    (s.append i).buf = s.buf ∧ (s.append i).device = s.device ∧ (s.append i).disk = s.disk ∧
    (s.append i).requests = s.requests ++ [s.buf i] ∧
    (s.append i).ticket = Function.update s.ticket i s.requests.length ∧
    (s.append i).started = s.started ∧ (s.append i).completed = s.completed ∧
    (s.append i).performed = s.performed := by
  cases hhead : s.idequeue <;> simp [append, hhead]

theorem Ordered.enqueue (h : Ordered disk₀ s q) {p : Slot} {i : Index}
    (hp : s.waits p = none) (hi : ∀ p', s.waits p' ≠ some i) (hok : Todo (s.buf i))
    (hqnext : t.qnext = (s.append i).qnext) (hidequeue : t.idequeue = (s.append i).idequeue)
    (hbuf : t.buf = s.buf) (hrequests : t.requests = s.requests ++ [s.buf i])
    (hticket : t.ticket = Function.update s.ticket i s.requests.length)
    (hcompleted : t.completed = s.completed)
    (hwaits : t.waits = Function.update s.waits p (some i)) (hdisk : t.disk = s.disk)
    (hperformed : t.performed = s.performed)
    (hstarted : t.started = List.range (s.completed.length + 1))
    (hworking : Working t (q ++ [i])) : Ordered disk₀ t (q ++ [i]) := by
  have hiq : i ∉ q := by
    intro hmem
    obtain ⟨p', hp'⟩ := (h.queued i hmem).1
    exact hi p' hp'
  have hother : ∀ j, j ≠ i → t.ticket j = s.ticket j := fun j hj => by
    rw [hticket, Function.update_of_ne hj]
  have hself : t.ticket i = s.requests.length := by rw [hticket, Function.update_self]
  have hbefore : ∀ size, t.AllMem size → s.AllMem size := fun size hall b hb =>
    hall b (by simp [hrequests, hb])
  constructor
  case chain =>
    rw [hqnext, hidequeue]
    exact chain_append h.chain h.nodup hiq
  case nodup => exact List.nodup_append.2 ⟨h.nodup, by simp, by
    rintro j hj _ hmem rfl
    exact hiq (List.mem_singleton.1 hmem ▸ hj)⟩
  case tickets =>
    have hmap : q.map t.ticket = q.map s.ticket :=
      List.map_congr_left fun j hj => hother j fun heq => hiq (heq ▸ hj)
    rw [List.map_append, hmap, h.tickets, hcompleted, List.length_append, List.length_singleton,
      List.range'_concat]
    simp [hself, h.length]
  case length =>
    rw [hrequests, hcompleted, List.length_append, List.length_append, h.length]
    simp only [List.length_singleton]
    omega
  case completed =>
    rw [hcompleted]
    exact h.completed
  case started =>
    rw [hstarted, hcompleted]
    simp
  case alone =>
    intro p₁ p₂ j h₁ h₂
    rw [hwaits] at h₁ h₂
    by_cases hp₁ : p₁ = p
    · by_cases hp₂ : p₂ = p
      · rw [hp₁, hp₂]
      · rw [hp₁, Function.update_self] at h₁
        rw [Function.update_of_ne hp₂] at h₂
        exact absurd (h₂.trans h₁.symm) (hi p₂)
    · by_cases hp₂ : p₂ = p
      · rw [hp₂, Function.update_self] at h₂
        rw [Function.update_of_ne hp₁] at h₁
        exact absurd (h₁.trans h₂.symm) (hi p₁)
      · rw [Function.update_of_ne hp₁] at h₁
        rw [Function.update_of_ne hp₂] at h₂
        exact h.alone p₁ p₂ j h₁ h₂
  case queued =>
    intro j hj
    rcases List.mem_append.1 hj with hj | hj
    · have hji : j ≠ i := fun heq => hiq (heq ▸ hj)
      obtain ⟨⟨p', hp'⟩, hreq⟩ := h.queued j hj
      have hne : p' ≠ p := by
        rintro rfl
        rw [hp] at hp'
        cases hp'
      refine ⟨⟨p', by rw [hwaits, Function.update_of_ne hne, hp']⟩, ?_⟩
      have hlt := (List.getElem?_eq_some_iff.1 hreq).1
      rw [hother j hji, hrequests, hbuf, List.getElem?_append_left hlt, hreq]
    · obtain rfl := List.mem_singleton.1 hj
      refine ⟨⟨p, by rw [hwaits, Function.update_self]⟩, ?_⟩
      rw [hself, hrequests, hbuf]
      simp
  case requests =>
    intro b hb
    rw [hrequests] at hb
    rcases List.mem_append.1 hb with hb | hb
    · exact h.requests b hb
    · rw [List.mem_singleton.1 hb]
      exact hok
  case working => exact hworking
  case disk =>
    intro size hall
    rw [hrequests, hperformed, hdisk, List.take_append_of_le_length h.performed_le]
    exact h.disk size (hbefore size hall)
  case back =>
    intro p' j hp' hj
    have hji : j ≠ i := fun heq => hj (by simp [heq])
    have hne : p' ≠ p := by
      rintro rfl
      rw [hwaits, Function.update_self] at hp'
      exact hji (Option.some.inj hp').symm
    rw [hwaits, Function.update_of_ne hne] at hp'
    obtain ⟨hlt, hreturns⟩ := h.back p' j hp' fun hmem => hj (by simp [hmem])
    rw [hother j hji, hcompleted, hrequests, hbuf]
    exact ⟨hlt, fun size hall => (hreturns size (hbefore size hall)).append⟩

theorem Ordered.iderw (h : Ordered disk₀ s q) {p : Slot} {i : Index}
    (hp : s.waits p = none) (hi : ∀ p', s.waits p' ≠ some i)
    (ht : s.iderw havedisk1 p i = some t) : Ordered disk₀ t (q ++ [i]) := by
  obtain ⟨hbuf, hdevice, hdisk, hrequests, hticket, hstarted, hcompleted, hperformed⟩ :=
    append_spec s i
  have hiq : i ∉ q := by
    intro hmem
    obtain ⟨p', hp'⟩ := (h.queued i hmem).1
    exact hi p' hp'
  have hhead := (chain_append h.chain h.nodup hiq).head_eq
  simp only [Ide.iderw] at ht
  split_ifs at ht with hbusy hnothing hdisk1 hfirst
  all_goals
    have hok : Todo (s.buf i) := ⟨by simpa using hbusy, by simpa using hnothing⟩
  · -- the queue was empty
    have hq : q = [] := by
      cases q with
      | nil => rfl
      | cons j q =>
        rw [hfirst] at hhead
        exact absurd (by simpa using hhead) fun heq : j = i => hiq (by simp [heq])
    subst hq
    obtain ⟨hidle, hperf⟩ := h.working
    simp only [idestart, hdevice, hidle, Option.some.injEq] at ht
    subst ht
    have hlen : s.requests.length = s.completed.length := by simpa using h.length
    refine h.enqueue hp hi hok rfl rfl hbuf hrequests hticket hcompleted rfl hdisk hperformed ?_ ?_
    · show (s.append i).started ++ [(s.append i).ticket i] = _
      rw [hstarted, hticket, Function.update_self, hlen, List.range_succ, h.started]
      simp
    · refine .inl ⟨?_, ?_⟩
      · show Device.busy (command ((s.append i).buf i)) = .busy (command ((s.append i).buf i))
        rfl
      · show (s.append i).performed = (s.append i).completed.length
        rw [hperformed, hcompleted, hperf]
  · obtain rfl := Option.some.inj ht
    have hq : q ≠ [] := by
      rintro rfl
      exact hfirst (by simpa using hhead.symm)
    refine h.enqueue hp hi hok rfl rfl hbuf hrequests hticket hcompleted rfl hdisk hperformed ?_ ?_
    · show (s.append i).started = _
      rw [hstarted, h.started, if_neg hq]
    · have hwork := h.working
      cases q with
      | nil => exact absurd rfl hq
      | cons j q =>
        simp only [List.cons_append, Working, hdevice, hperformed, hcompleted, hbuf, hdisk]
        exact hwork

theorem Ordered.not_queued (h : Ordered disk₀ s q) {i : Index}
    (hi : ((s.buf i).valid && !(s.buf i).dirty) = true) : i ∉ q := by
  intro hmem
  rw [(h.requests _ (h.mem_requests hmem)).todo] at hi
  cases hi

theorem Ordered.resume (h : Ordered disk₀ s q) {p : Slot} (ht : s.resume p = some t) :
    Ordered disk₀ t q := by
  unfold Ide.resume at ht
  split at ht
  · cases ht
  · rename_i i hp
    split_ifs at ht with hdone
    · obtain rfl := Option.some.inj ht
      have hiq := h.not_queued hdone
      have hold : ∀ p' j, Function.update s.waits p none p' = some j → s.waits p' = some j := by
        intro p' j hp'
        by_cases hne : p' = p
        · rw [hne, Function.update_self] at hp'
          cases hp'
        · rwa [Function.update_of_ne hne] at hp'
      refine ⟨h.chain, h.nodup, h.tickets, h.length, h.completed, h.started,
        fun p₁ p₂ j h₁ h₂ => h.alone p₁ p₂ j (hold p₁ j h₁) (hold p₂ j h₂), fun j hj => ?_,
        h.requests, ?_, h.disk, fun p' j hp' => h.back p' j (hold p' j hp')⟩
      · obtain ⟨⟨p', hp'⟩, hreq⟩ := h.queued j hj
        have hne : p' ≠ p := by
          rintro rfl
          rw [hp] at hp'
          exact hiq (Option.some.inj hp' ▸ hj)
        exact ⟨⟨p', by rw [← hp']; exact Function.update_of_ne hne ..⟩, hreq⟩
      · have hwork := h.working
        cases q with
        | nil => exact hwork
        | cons j q => exact hwork
    · obtain rfl := Option.some.inj ht
      exact h

theorem Ordered.complete (h : Ordered disk₀ s q) (ht : s.complete = some t) :
    Ordered disk₀ t q := by
  unfold Ide.complete at ht
  split at ht
  · rename_i c hbusy
    cases q with
    | nil =>
      have hidle := h.working.1
      rw [hbusy] at hidle
      cases hidle
    | cons i q =>
      have hmem : i ∈ i :: q := List.mem_cons_self
      obtain ⟨hcmd, hperf⟩ : c = command (s.buf i) ∧ s.performed = s.completed.length := by
        rcases h.working with ⟨hdev, hperf⟩ | ⟨port, hdev, _⟩
        · rw [hbusy] at hdev
          exact ⟨Device.busy.inj hdev, hperf⟩
        · rw [hbusy] at hdev
          cases hdev
      have hreq : s.requests[s.performed]? = some (s.buf i) := by
        rw [hperf, ← h.head_ticket]
        exact (h.queued i hmem).2
      subst hcmd
      obtain rfl := Option.some.inj ht
      refine ⟨h.chain, h.nodup, h.tickets, h.length, h.completed, h.started, h.alone, h.queued,
        h.requests, .inr ⟨_, rfl, congrArg (· + 1) hperf, fun _ => rfl⟩, fun size hall => ?_,
        h.back⟩
      have hreqs := h.mem_requests hmem
      refine (serve_take_succ hreq (h.disk size hall)).trans ?_
      rw [memIderw_of_ok (h.requests _ hreqs) (hall _ hreqs), (hall _ hreqs).command]
      cases hdirty : (s.buf i).dirty with
      | true => simp
      | false => simp
  · cases ht

theorem Ordered.returns_head {i : Index} {port : Block} (h : Ordered disk₀ s (i :: q))
    (hdevice : s.device = .done port) (hall : s.AllMem size) :
    Returns size (disk₀ true) s.requests s.completed.length
      { s.buf i with
        data := if (s.buf i).dirty then (s.buf i).data else port
        valid := true
        dirty := false } := by
  have hmem : i ∈ i :: q := List.mem_cons_self
  have hreqs := h.mem_requests hmem
  obtain ⟨hperf, hport⟩ : s.performed = s.completed.length + 1 ∧
      ((s.buf i).dirty = false →
        port = s.disk (command (s.buf i)).drive (command (s.buf i)).lba) := by
    rcases h.working with ⟨hdev, _⟩ | ⟨port', hdev, hperf, hport⟩
    · rw [hdevice] at hdev
      cases hdev
    · rw [hdevice] at hdev
      rw [Device.done.inj hdev]
      exact ⟨hperf, hport⟩
  have hreq : s.requests[s.completed.length]? = some (s.buf i) := by
    rw [← h.head_ticket]
    exact (h.queued i hmem).2
  have hdisk := h.disk size hall
  rw [hperf, List.take_add_one, hreq, serve_append] at hdisk
  obtain ⟨d, hd, hlast⟩ := Option.bind_eq_some_iff.1 hdisk
  have hmemd : memIderw size d (s.buf i) = _ := memIderw_of_ok (h.requests _ hreqs) (hall _ hreqs)
  refine ⟨d, s.buf i, s.disk true, hd, hreq, ?_⟩
  simp only [Option.toList_some, serve, hmemd] at hlast
  rw [hmemd]
  cases hdirty : (s.buf i).dirty with
  | true =>
    simp only [hdirty, if_true, Option.bind_some, Option.some.injEq] at hlast ⊢
    rw [hlast]
  | false =>
    simp only [hdirty, Bool.false_eq_true, if_false, Option.bind_some, Option.some.injEq]
      at hlast ⊢
    rw [hport hdirty, (hall _ hreqs).command, hlast]

theorem Ordered.finish {i : Index} {port : Block} (h : Ordered disk₀ s (i :: q))
    (hdevice : s.device = .done port) (hstarted : t.started = List.range (s.completed.length + 1 +
      if q = [] then 0 else 1)) (hqnext : t.qnext = s.qnext) (hidequeue : t.idequeue = s.qnext i)
    (hbuf : t.buf = (s.finish i port).buf) (hrequests : t.requests = s.requests)
    (hticket : t.ticket = s.ticket) (hcompleted : t.completed = s.completed ++ [s.ticket i])
    (hwaits : t.waits = s.waits) (hdisk : t.disk = s.disk) (hperformed : t.performed = s.performed)
    (hworking : Working t q) : Ordered disk₀ t q := by
  obtain ⟨hiq, hnodup⟩ := List.nodup_cons.1 h.nodup
  have hlen : t.completed.length = s.completed.length + 1 := by simp [hcompleted]
  have hself : t.buf i =
      { s.buf i with
        data := if (s.buf i).dirty then (s.buf i).data else port
        valid := true
        dirty := false } := by
    rw [hbuf]
    exact Function.update_self ..
  have hother : ∀ j, j ≠ i → t.buf j = s.buf j := fun j hj => by
    rw [hbuf]
    exact Function.update_of_ne hj ..
  constructor
  case chain =>
    rw [hqnext, hidequeue]
    exact h.chain.2
  case nodup => exact hnodup
  case tickets =>
    have htickets := h.tickets
    simp only [List.map_cons, List.length_cons, List.range'_succ] at htickets
    rw [hticket, hlen]
    exact (List.cons.inj htickets).2
  case length =>
    have hlength := h.length
    rw [List.length_cons] at hlength
    rw [hrequests, hlen]
    omega
  case completed =>
    rw [hlen, List.range_succ, hcompleted, h.head_ticket, ← h.completed]
  case started => rw [hstarted, hlen]
  case alone =>
    rw [hwaits]
    exact h.alone
  case queued =>
    intro j hj
    have hji : j ≠ i := fun heq => hiq (heq ▸ hj)
    rw [hwaits, hrequests, hticket, hother j hji]
    exact h.queued j (List.mem_cons_of_mem i hj)
  case requests =>
    rw [hrequests]
    exact h.requests
  case working => exact hworking
  case disk =>
    unfold AllMem
    rw [hrequests, hperformed, hdisk]
    exact h.disk
  case back =>
    intro p j hp hj
    rw [hwaits] at hp
    unfold AllMem
    rw [hticket, hrequests, hlen]
    by_cases hji : j = i
    · subst hji
      rw [h.head_ticket, hself]
      exact ⟨Nat.lt_succ_self _, fun size hall => h.returns_head hdevice hall⟩
    · obtain ⟨hlt, hreturns⟩ := h.back p j hp (List.not_mem_cons_of_ne_of_not_mem hji hj)
      rw [hother j hji]
      exact ⟨Nat.lt_succ_of_lt hlt, hreturns⟩

theorem Ordered.ideintr (h : Ordered disk₀ s q) (ht : s.ideintr = some t) :
    ∃ q', Ordered disk₀ t q' := by
  unfold Ide.ideintr at ht
  split at ht
  · rename_i port hdevice
    cases q with
    | nil =>
      have hidle := h.working.1
      rw [hdevice] at hidle
      cases hidle
    | cons i q =>
      have hhead : s.idequeue = some i := h.chain.1
      have hperf : s.performed = s.completed.length + 1 := by
        rcases h.working with ⟨hdev, _⟩ | ⟨_, _, hperf, _⟩
        · rw [hdevice] at hdev
          cases hdev
        · exact hperf
      have hlen : (s.finish i port).completed.length = s.completed.length + 1 := by
        simp [Ide.finish]
      have hstart := h.started
      rw [if_neg (List.cons_ne_nil i q)] at hstart
      refine ⟨q, ?_⟩
      simp only [hhead] at ht
      cases q with
      | nil =>
        have hnone : (s.finish i port).idequeue = none := h.chain.2
        simp only [hnone, Option.some.injEq] at ht
        subst ht
        refine h.finish hdevice ?_ rfl rfl rfl rfl rfl rfl rfl rfl rfl ⟨rfl, ?_⟩
        · exact hstart
        · rw [hlen]
          exact hperf
      | cons j q =>
        have hsome : (s.finish i port).idequeue = some j := h.chain.2.1
        have hidle : (s.finish i port).device = .idle := rfl
        simp only [hsome, idestart, hidle, Option.some.injEq] at ht
        subst ht
        refine h.finish hdevice ?_ rfl h.chain.2.1.symm rfl rfl rfl rfl rfl rfl rfl
          (.inl ⟨rfl, ?_⟩)
        · have htickets := h.tickets
          simp only [List.map_cons, List.length_cons, List.range'_succ] at htickets
          have hj := (List.cons.inj (List.cons.inj htickets).2).1
          show s.started ++ [s.ticket j] = _
          rw [if_neg (List.cons_ne_nil j q), List.range_succ, hstart, hj]
        · show s.performed = (s.finish i port).completed.length
          rw [hlen]
          exact hperf
  · cases ht

/-! ## Whole runs -/

theorem Init.ordered (h : Init disk₀ s) : Ordered disk₀ s [] := by
  obtain ⟨hrequests, hstarted, hcompleted, hperformed⟩ := h.history
  constructor
  case chain => exact h.idequeue
  case nodup => exact List.nodup_nil
  case tickets => rfl
  case length => simp [hrequests, hcompleted]
  case completed => simp [hcompleted]
  case started => simp [hstarted, hcompleted]
  case alone => simp [h.waits]
  case queued => simp
  case requests => simp [hrequests]
  case working => exact ⟨h.device, by simp [hperformed, hcompleted]⟩
  case disk => simp [hrequests, serve, h.disk]
  case back => simp [h.waits]

theorem Ordered.next (h : Ordered disk₀ s q) {e : Event} (ht : s.next havedisk1 e = some t) :
    ∃ q', Ordered disk₀ t q' := by
  cases e with
  | store i b =>
    simp only [Ide.next, Option.ite_none_right_eq_some, Option.some.injEq] at ht
    obtain ⟨hi, rfl⟩ := ht
    exact ⟨q, h.store hi b⟩
  | iderw p i =>
    simp only [Ide.next, Option.ite_none_right_eq_some] at ht
    obtain ⟨⟨hp, hi⟩, ht⟩ := ht
    exact ⟨q ++ [i], h.iderw hp hi ht⟩
  | resume p => exact ⟨q, h.resume ht⟩
  | complete => exact ⟨q, h.complete ht⟩
  | ideintr => exact h.ideintr ht

theorem ordered_of_reachable (h : (machine havedisk1 disk₀).Reachable s) :
    ∃ q, Ordered disk₀ s q := by
  refine Machine.Reach.invariant (I := fun s => ∃ q, Ordered disk₀ s q) ?_ ?_ h
  · exact fun s hs => ⟨[], hs.ordered⟩
  · rintro s e t ⟨q, hs⟩ _ ht
    exact hs.next ht

/-- The request that the device works on, or has carried out, is that of the buffer. -/
def InProgress (s : Ide) (i : Index) : Prop :=
  s.device = .busy (command (s.buf i)) ∨
    ∃ port, s.device = .done port ∧
      ((s.buf i).dirty = false →
        port = s.disk (command (s.buf i)).drive (command (s.buf i)).lba)

/-- In every run the requests are started and completed once each, in the order of the queue, the
head of the queue is the request in progress, and a call of `iderw` returns after its request is
completed.  If `memide.c` can serve the requests, the disk is that of `memide.c` after the
requests that the device has carried out, and the call returns the buffer that `memide.c` returns
for its request. -/
theorem ide_refines_memide (h : (machine havedisk1 disk₀).Reachable s) :
    ∃ q, IsChain s.qnext s.idequeue q ∧
      s.completed = List.range s.completed.length ∧
      q.map s.ticket = List.range' s.completed.length q.length ∧
      s.requests.length = s.completed.length + q.length ∧
      s.started = List.range (s.completed.length + if q = [] then 0 else 1) ∧
      (∀ i, s.idequeue = some i → s.InProgress i) ∧
      (s.idequeue = none → s.device = .idle) ∧
      (s.completed.length ≤ s.performed ∧ s.performed ≤ s.started.length) ∧
      (∀ size, s.AllMem size →
        serve size (disk₀ true) (s.requests.take s.performed) = some (s.disk true)) ∧
      ∀ p i t, s.waits p = some i → s.next havedisk1 (.resume p) = some t → t.waits p = none →
        s.ticket i ∈ s.completed ∧
        ∀ size, s.AllMem size → Returns size (disk₀ true) s.requests (s.ticket i) (s.buf i) := by
  obtain ⟨q, hq⟩ := ordered_of_reachable h
  refine ⟨q, hq.chain, hq.completed, hq.tickets, hq.length, hq.started, fun i hi => ?_,
    fun hnone => ?_, ?_, hq.disk, fun p i t hp ht hback => ?_⟩
  · cases q with
    | nil =>
      have hnone : s.idequeue = none := hq.chain
      rw [hnone] at hi
      cases hi
    | cons j q =>
      obtain rfl : j = i := Option.some.inj (hq.chain.1.symm.trans hi)
      rcases hq.working with ⟨hbusy, _⟩ | ⟨port, hdone, _, hport⟩
      · exact .inl hbusy
      · exact .inr ⟨port, hdone, hport⟩
  · have hnil : q = [] := hq.chain.eq_nil_iff.2 hnone
    subst hnil
    exact hq.working.1
  · have hstarted := hq.started
    cases q with
    | nil =>
      rw [hstarted, hq.working.2]
      simp
    | cons j q =>
      rw [hstarted, if_neg (List.cons_ne_nil j q), List.length_range]
      rcases hq.working with ⟨_, hperf⟩ | ⟨_, _, hperf, _⟩ <;> omega
  · have hdone : ((s.buf i).valid && !(s.buf i).dirty) = true := by
      by_contra hnot
      simp only [Ide.next, Ide.resume, hp, hnot, if_false, Option.some.injEq] at ht
      rw [← ht, hp] at hback
      cases hback
    obtain ⟨hlt, hreturns⟩ := hq.back p i hp (hq.not_queued hdone)
    refine ⟨?_, hreturns⟩
    rw [hq.completed]
    exact List.mem_range.2 hlt

/-- A buffer to be written to sector 3, and others to be read from there. -/
def twoBuffers (i : Index) : Buffer :=
  { busy := true, valid := false, dirty := i.val = 0, dev := 1, sector := 3,
    data := fun _ => if i.val = 0 then 7 else 0 }

def twoRequests : Ide :=
  { buf := twoBuffers, qnext := fun _ => none, idequeue := none, device := .idle
    disk := fun _ _ _ => 0, waits := fun _ => none, requests := [], ticket := fun _ => 0
    started := [], completed := [], performed := 0 }

/-- A write and a read of one sector are queued, and the read returns what was written. -/
theorem ide_refines_memide_two : ∃ s : Ide,
    (machine true fun _ _ _ => 0).Reachable s ∧ s.AllMem 5120 ∧ s.completed = [0, 1] ∧
    (∃ p i t, s.waits p = some i ∧ s.next true (.resume p) = some t ∧ t.waits p = none ∧
      s.ticket i = 1 ∧ Returns 5120 (fun _ _ => 0) s.requests (s.ticket i) (s.buf i)) := by
  have hinit : (machine true fun _ _ _ => 0).Reach (fun _ _ => True) twoRequests :=
    .init ⟨rfl, rfl, rfl, rfl, rfl, rfl, rfl, rfl⟩
  have hrun : (Machine.runList (fun s e => if True then s.next true e else none)
      twoRequests [.iderw ⟨0, by decide⟩ ⟨0, by decide⟩, .iderw ⟨1, by decide⟩ ⟨1, by decide⟩,
        .complete, .ideintr, .complete, .ideintr]).map (fun s => decide (
          (∀ b ∈ s.requests, b.dev = 1 ∧ b.sector.toNat < disksize 5120) ∧
          s.completed = [0, 1] ∧ s.waits ⟨1, by decide⟩ = some ⟨1, by decide⟩ ∧
          s.ticket ⟨1, by decide⟩ = 1 ∧
          ((s.buf ⟨1, by decide⟩).valid && !(s.buf ⟨1, by decide⟩).dirty) = true)) =
            some true := by
    decide +kernel
  obtain ⟨s, hs, hobs⟩ := Option.map_eq_some_iff.1 hrun
  obtain ⟨hmem, hcompleted, hwaits, hticket, hdone⟩ := of_decide_eq_true hobs
  have hall : s.AllMem 5120 := fun b hb => ⟨(hmem b hb).1, (hmem b hb).2⟩
  have hreach := hinit.runList (fun _ _ _ ht => ht) _ hs
  have hresume : s.next true (.resume ⟨1, by decide⟩) =
      some { s with waits := Function.update s.waits ⟨1, by decide⟩ none } := by
    simp only [Ide.next, Ide.resume, hwaits, hdone, if_true]
  obtain ⟨_, _, _, _, _, _, _, _, _, _, hback⟩ := ide_refines_memide hreach
  have hself : Function.update s.waits ⟨1, by decide⟩ none ⟨1, by decide⟩ = none :=
    Function.update_self ..
  exact ⟨s, hreach, hall, hcompleted, _, _, _, hwaits, hresume, hself, hticket,
    (hback _ _ _ hwaits hresume hself).2 5120 hall⟩

end Ide

end Xv6.Fs
