import SgMuni.Lift.Moves

/-!
# The critical sections of the handlers

At most one handler is inside of a section under `bincount_mutex`, and at most
one inside of a section under `clients_mtx`: there the registry does not change.
Every announcement comes from an earlier section under `bincount_mutex`.
-/

namespace SgMuni

/-- The announcement that the callback is working on. -/
def GpioPc.announcement : GpioPc → Option Announcement
  | .idle | .counting => none
  | .broadcastLock a | .broadcasting a _ | .listLock a | .listing a | .adding a _
  | .pendingLock a _ _ | .pendingHeld a _ _ => some a

/-- The announcement that the clear handler still broadcasts. -/
def ClrPc.announcement : ClrPc → Option Announcement
  | .broadcastLock a | .broadcasting a _ => some a
  | _ => none

/-- The announcement that the query handler still sends. -/
def QueryPc.announcement : QueryPc → Option Announcement
  | .pushing a _ => some a
  | _ => none

namespace Comm

open Transition

/-- The handler is inside of a section under `bincount_mutex`. -/
def inBincount (s : Comm) : Handler → Bool
  | .gpio =>
      match s.gpio with
      | .counting => true
      | _ => false
  | .clr =>
      match s.clr with
      | .zeroing | .writing | .reading => true
      | _ => false
  | .query =>
      match s.query with
      | .reading _ => true
      | _ => false
  | .ack | .manager => false

/-- The handler is inside of a section under `clients_mtx`. -/
def inClients (s : Comm) : Handler → Bool
  | .gpio =>
      match s.gpio with
      | .broadcasting _ _ | .listing _ => true
      | _ => false
  | .clr =>
      match s.clr with
      | .broadcasting _ _ => true
      | _ => false
  | .query | .ack | .manager => false

variable {cfg : Config} {s s' : Comm}

/-- Each mutex is owned by the handler inside of its section. -/
structure SectionInv (s : Comm) : Prop where
  bincount : Guarded s.bincountMtx s.inBincount
  clients : Guarded s.clientsMtx s.inClients

theorem sectionInv_start (bincount : Int) (file : Option Int) : SectionInv (start bincount file) where
  bincount h := by cases h <;> simp [start, inBincount]
  clients h := by cases h <;> simp [start, inClients]

theorem GpioMove.bincountMtx {a : GpioAct} (h : GpioMove cfg s a s') :
    MutexStep .gpio s.bincountMtx s'.bincountMtx (s.inBincount .gpio) (s'.inBincount .gpio) := by
  cases h with
  | lift gpio free => exact .take free rfl rfl
  | count gpio counted => exact .leave (by simp only [inBincount, gpio]) rfl rfl
  | _ => exact .keep rfl (by simp [inBincount, *])

theorem GpioMove.clientsMtx {a : GpioAct} (h : GpioMove cfg s a s') :
    MutexStep .gpio s.clientsMtx s'.clientsMtx (s.inClients .gpio) (s'.inClients .gpio) := by
  cases h with
  | lockBroadcast gpio free => exact .take free rfl rfl
  | lockList gpio free => exact .take free rfl rfl
  | broadcastEnd gpio last => exact .leave (by simp only [inClients, gpio]) rfl rfl
  | list gpio => exact .leave (by simp only [inClients, gpio]) rfl rfl
  | listFail gpio => exact .leave (by simp only [inClients, gpio]) rfl rfl
  | _ => exact .keep rfl (by simp [inClients, *])

theorem GpioMove.others {a : GpioAct} (h : GpioMove cfg s a s') {u : Handler} (hu : u ≠ .gpio) :
    s'.inBincount u = s.inBincount u ∧ s'.inClients u = s.inClients u := by
  cases h <;> cases u <;> first | exact absurd rfl hu | exact ⟨rfl, rfl⟩

theorem ClrMove.bincountMtx {a : ClrAct} (h : ClrMove cfg s a s') :
    MutexStep .clr s.bincountMtx s'.bincountMtx (s.inBincount .clr) (s'.inBincount .clr) := by
  cases h with
  | task clr free => exact .take free rfl rfl
  | read clr readBack => exact .leave (by simp only [inBincount, clr]) rfl rfl
  | _ => exact .keep rfl (by simp [inBincount, *])

theorem ClrMove.clientsMtx {a : ClrAct} (h : ClrMove cfg s a s') :
    MutexStep .clr s.clientsMtx s'.clientsMtx (s.inClients .clr) (s'.inClients .clr) := by
  cases h with
  | lockBroadcast clr free => exact .take free rfl rfl
  | broadcastEnd clr last => exact .leave (by simp only [inClients, clr]) rfl rfl
  | _ => exact .keep rfl (by simp [inClients, *])

theorem ClrMove.others {a : ClrAct} (h : ClrMove cfg s a s') {u : Handler} (hu : u ≠ .clr) :
    s'.inBincount u = s.inBincount u ∧ s'.inClients u = s.inClients u := by
  cases h <;> cases u <;> first | exact absurd rfl hu | exact ⟨rfl, rfl⟩

theorem QueryMove.bincountMtx {a : QueryAct} (h : QueryMove cfg s a s') :
    MutexStep .query s.bincountMtx s'.bincountMtx (s.inBincount .query)
      (s'.inBincount .query) := by
  cases h with
  | task query free => exact .take free rfl rfl
  | read query => exact .leave (by simp only [inBincount, query]) rfl rfl
  | push query room => exact .keep rfl (by simp [inBincount, query])

theorem QueryMove.clientsMtx {a : QueryAct} (h : QueryMove cfg s a s') :
    s'.clientsMtx = s.clientsMtx ∧ s'.inClients = s.inClients := by
  cases h <;> exact ⟨rfl, funext fun u => by cases u <;> rfl⟩

theorem QueryMove.others {a : QueryAct} (h : QueryMove cfg s a s') {u : Handler} (hu : u ≠ .query) :
    s'.inBincount u = s.inBincount u := by
  cases h <;> cases u <;> first | exact absurd rfl hu | rfl

/-- A thread that takes neither mutex for longer than a step. -/
structure Outside (s s' : Comm) : Prop where
  bincountMtx : s'.bincountMtx = s.bincountMtx
  clientsMtx : s'.clientsMtx = s.clientsMtx
  gpio : s'.gpio = s.gpio
  clr : s'.clr = s.clr
  query : s'.query = s.query

theorem AckMove.outside {a : AckAct} (h : AckMove s a s') : Outside s s' := by
  cases h <;> exact ⟨rfl, rfl, rfl, rfl, rfl⟩

theorem ManagerMove.outside {a : ManagerAct} (h : ManagerMove cfg s a s') : Outside s s' := by
  cases h <;> exact ⟨rfl, rfl, rfl, rfl, rfl⟩

theorem TcpMove.outside {a : TcpAct} (h : TcpMove s a s') : Outside s s' := by
  cases h <;> exact ⟨rfl, rfl, rfl, rfl, rfl⟩

theorem Outside.sectionInv (h : Outside s s') (hinv : SectionInv s) : SectionInv s' := by
  refine ⟨?_, ?_⟩
  · intro u
    rw [h.bincountMtx, ← hinv.bincount u]
    cases u <;> simp only [inBincount, h.gpio, h.clr, h.query]
  · intro u
    rw [h.clientsMtx, ← hinv.clients u]
    cases u <;> simp only [inClients, h.gpio, h.clr]

/-- Every step keeps the mutexes guarding their sections. -/
theorem SectionInv.next {a : Action} (hinv : SectionInv s) (h : next cfg s a = some s') :
    SectionInv s' := by
  cases a with
  | gpio a =>
      have hmove := gpioNext_move h
      exact ⟨hinv.bincount.step hmove.bincountMtx fun u hu => (hmove.others hu).1,
        hinv.clients.step hmove.clientsMtx fun u hu => (hmove.others hu).2⟩
  | clr a =>
      have hmove := clrNext_move h
      exact ⟨hinv.bincount.step hmove.bincountMtx fun u hu => (hmove.others hu).1,
        hinv.clients.step hmove.clientsMtx fun u hu => (hmove.others hu).2⟩
  | query a =>
      have hmove := queryNext_move h
      refine ⟨hinv.bincount.step hmove.bincountMtx fun u hu => hmove.others hu, ?_⟩
      rw [hmove.clientsMtx.1, hmove.clientsMtx.2]
      exact hinv.clients
  | ack a => exact (ackNext_move h).outside.sectionInv hinv
  | manager a => exact (managerNext_move h).outside.sectionInv hinv
  | tcp a => exact (tcpNext_move h).outside.sectionInv hinv

/-- The announcements in progress and those made come from earlier sections. -/
structure Issued (s : Comm) : Prop where
  gpio : ∀ a, s.gpio.announcement = some a → a.seq < s.sections
  clr : ∀ a, s.clr.announcement = some a → a.seq < s.sections
  query : ∀ a, s.query.announcement = some a → a.seq < s.sections
  announced : ∀ x ∈ s.announced, x.2.seq < s.sections

theorem issued_start (bincount : Int) (file : Option Int) : Issued (start bincount file) := by
  constructor <;> simp [start, GpioPc.announcement, ClrPc.announcement, QueryPc.announcement]

theorem Issued.announce (hinv : Issued s) {fd : Fd} {a : Announcement} (ha : a.seq < s.sections) :
    ∀ x ∈ (s.announce fd a).announced, x.2.seq < s.sections := by
  intro x hx
  rcases List.mem_append.mp hx with hold | hnew
  · exact hinv.announced x hold
  · cases List.mem_singleton.mp hnew
    exact ha

/-- One more section was closed, and its announcement may be in progress. -/
theorem Issued.close (hinv : Issued s) (hsections : s'.sections = s.sections + 1)
    (hannounced : s'.announced = s.announced)
    (hgpio : ∀ a, s'.gpio.announcement = some a →
      a.seq = s.sections ∨ s.gpio.announcement = some a)
    (hclr : ∀ a, s'.clr.announcement = some a → a.seq = s.sections ∨ s.clr.announcement = some a)
    (hquery : ∀ a, s'.query.announcement = some a →
      a.seq = s.sections ∨ s.query.announcement = some a) : Issued s' where
  gpio a ha := by
    rcases hgpio a ha with hnew | hold
    · omega
    · have hlt := hinv.gpio a hold
      omega
  clr a ha := by
    rcases hclr a ha with hnew | hold
    · omega
    · have hlt := hinv.clr a hold
      omega
  query a ha := by
    rcases hquery a ha with hnew | hold
    · omega
    · have hlt := hinv.query a hold
      omega
  announced x hx := by
    have hlt := hinv.announced x (hannounced ▸ hx)
    omega

theorem GpioMove.issued {a : GpioAct} (hinv : Issued s) (h : GpioMove cfg s a s') :
    Issued s' := by
  cases h with
  | count gpio counted =>
      refine hinv.close rfl rfl ?_ (fun a ha => .inr ha) fun a ha => .inr ha
      rintro _ ⟨⟩
      exact .inl rfl
  | @push a i fd gpio client room =>
      have ha : a.seq < s.sections := hinv.gpio a (by simp only [gpio, GpioPc.announcement])
      refine ⟨?_, hinv.clr, hinv.query, hinv.announce ha⟩
      rintro _ ⟨⟩
      exact ha
  | _ =>
      refine ⟨fun b hb => hinv.gpio b ?_, hinv.clr, hinv.query, hinv.announced⟩
      simp_all [GpioPc.announcement]

theorem ClrMove.issued {a : ClrAct} (hinv : Issued s) (h : ClrMove cfg s a s') : Issued s' := by
  cases h with
  | read clr readBack =>
      refine hinv.close rfl rfl (fun a ha => .inr ha) ?_ fun a ha => .inr ha
      rintro _ ⟨⟩
      exact .inl rfl
  | @push a i fd clr client room =>
      have ha : a.seq < s.sections := hinv.clr a (by simp only [clr, ClrPc.announcement])
      refine ⟨hinv.gpio, ?_, hinv.query, hinv.announce ha⟩
      rintro _ ⟨⟩
      exact ha
  | _ =>
      refine ⟨hinv.gpio, fun b hb => hinv.clr b ?_, hinv.query, hinv.announced⟩
      simp_all [ClrPc.announcement]

theorem QueryMove.issued {a : QueryAct} (hinv : Issued s) (h : QueryMove cfg s a s') :
    Issued s' := by
  cases h with
  | task query free =>
      refine ⟨hinv.gpio, hinv.clr, ?_, hinv.announced⟩
      rintro _ ⟨⟩
  | read query =>
      refine hinv.close rfl rfl (fun a ha => .inr ha) (fun a ha => .inr ha) ?_
      rintro _ ⟨⟩
      exact .inl rfl
  | @push a fd query room =>
      have ha : a.seq < s.sections := hinv.query a (by simp only [query, QueryPc.announcement])
      refine ⟨hinv.gpio, hinv.clr, ?_, hinv.announce ha⟩
      rintro _ ⟨⟩

theorem Issued.next {a : Action} (hinv : Issued s) (h : next cfg s a = some s') : Issued s' := by
  cases a with
  | gpio a => exact (gpioNext_move h).issued hinv
  | clr a => exact (clrNext_move h).issued hinv
  | query a => exact (queryNext_move h).issued hinv
  | ack a => cases ackNext_move h <;> exact ⟨hinv.gpio, hinv.clr, hinv.query, hinv.announced⟩
  | manager a =>
      cases managerNext_move h <;> exact ⟨hinv.gpio, hinv.clr, hinv.query, hinv.announced⟩
  | tcp a => cases tcpNext_move h <;> exact ⟨hinv.gpio, hinv.clr, hinv.query, hinv.announced⟩

theorem sectionInv_of_reachable (h : (system cfg).Reachable s) : SectionInv s := by
  apply h.invariant
  · rintro _ ⟨bincount, file, rfl⟩
    exact sectionInv_start bincount file
  · intro s a t _ ht hsec
    exact hsec.next ht

theorem issued_of_reachable (h : (system cfg).Reachable s) : Issued s := by
  apply h.invariant
  · rintro _ ⟨bincount, file, rfl⟩
    exact issued_start bincount file
  · intro s a t _ ht hissued
    exact hissued.next ht

end Comm

end SgMuni
