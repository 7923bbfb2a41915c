import SgMuni.Tcp.Messages

/-!
# Messages are delivered and freed once

Each block of a message is held by one thread or queue, which is where it is read and freed,
and what a loop hands on is what was posted, in the same order.
-/

namespace SgMuni

def Parcel.blocks (p : Parcel) : List Nat := [p.msg, p.data]

/-- The blocks that a position holds. -/
def PostPc.blocks : PostPc → List Nat
  | .idle | .called _ _ => []
  | .reading _ buf | .failed buf | .copying _ _ buf | .boxing _ _ buf => [buf]
  | .filling _ _ buf msg => [msg, buf]
  | .pushing p => p.blocks

def LoopPc.blocks : LoopPc → List Nat
  | .popping => []
  | .popped p | .used p => p.blocks
  | .freeing p => [p.msg]

section Contents

/-- A block starts with some bytes. -/
def StartsWith (heap : Nat → Option Block) (a : Nat) (bytes : List UInt8) : Prop :=
  ∃ rest, heap a = some (.data (bytes ++ rest))

/-- Both blocks of a parcel are what was handed over. -/
structure Parcel.Intact (heap : Nat → Option Block) (p : Parcel) : Prop where
  fields : heap p.msg = some (.message (some ⟨p.fd, p.data, p.bytes.length⟩))
  bytes : StartsWith heap p.data p.bytes

/-- What the steps of a thread that posts rely on. -/
def PostPc.Intact (heap : Nat → Option Block) : PostPc → Prop
  | .idle | .called _ _ | .failed _ => True
  | .reading _ buf => ∃ old, heap buf = some (.data old) ∧ old.length = maxMessage
  | .copying _ data buf => ∃ old, heap buf = some (.data old) ∧ old.length = data.length
  | .boxing _ data buf => StartsWith heap buf data
  | .filling _ data buf msg => StartsWith heap buf data ∧ heap msg = some (.message none)
  | .pushing p => p.Intact heap

def LoopPc.Intact (heap : Nat → Option Block) : LoopPc → Prop
  | .popping => True
  | .popped p | .used p => p.Intact heap
  | .freeing p => heap p.msg ≠ none

variable {heap heap' : Nat → Option Block} {p : Parcel}

theorem Parcel.Intact.congr (h : p.Intact heap) (heq : ∀ a ∈ p.blocks, heap' a = heap a) :
    p.Intact heap' where
  fields := (heq _ (by simp [Parcel.blocks])).trans h.fields
  bytes := h.bytes.imp fun _ hrest => (heq _ (by simp [Parcel.blocks])).trans hrest

theorem PostPc.Intact.congr {pc : PostPc} (h : pc.Intact heap)
    (heq : ∀ a ∈ pc.blocks, heap' a = heap a) : pc.Intact heap' := by
  cases pc with
  | idle => trivial
  | called fd data => trivial
  | failed buf => trivial
  | reading fd buf => exact h.imp fun old hold => ⟨(heq _ (by simp [blocks])).trans hold.1, hold.2⟩
  | copying fd data buf =>
      exact h.imp fun old hold => ⟨(heq _ (by simp [blocks])).trans hold.1, hold.2⟩
  | boxing fd data buf => exact h.imp fun rest hrest => (heq _ (by simp [blocks])).trans hrest
  | filling fd data buf msg =>
      exact ⟨h.1.imp fun rest hrest => (heq _ (by simp [blocks])).trans hrest,
        (heq _ (by simp [blocks])).trans h.2⟩
  | pushing p => exact Parcel.Intact.congr h heq

theorem LoopPc.Intact.congr {pc : LoopPc} (h : pc.Intact heap)
    (heq : ∀ a ∈ pc.blocks, heap' a = heap a) : pc.Intact heap' := by
  cases pc with
  | popping => trivial
  | popped p => exact Parcel.Intact.congr h heq
  | used p => exact Parcel.Intact.congr h heq
  | freeing p => exact (heq p.msg (List.mem_singleton_self _)).trans_ne h

end Contents

/-- Who can hold a block. -/
inductive MailHolder (ι : Type)
  | poster (k : Option ι)
  | queue (c : Chan)
  | loop (c : Chan)

namespace Mail

variable {ι : Type} {s s' : Mail ι}

def holds (s : Mail ι) : MailHolder ι → List Nat
  | .poster k => (s.poster k).blocks
  | .queue c => (s.queue c).flatMap Parcel.blocks
  | .loop c => (s.loop c).blocks

/-- What a holder has is as its next steps need it. -/
def IntactAt (s : Mail ι) (heap : Nat → Option Block) : MailHolder ι → Prop
  | .poster k => (s.poster k).Intact heap
  | .queue c => ∀ p ∈ s.queue c, p.Intact heap
  | .loop c => (s.loop c).Intact heap

theorem IntactAt.congr {heap heap' : Nat → Option Block} {h : MailHolder ι}
    (hintact : s.IntactAt heap h) (heq : ∀ a ∈ s.holds h, heap' a = heap a) :
    s.IntactAt heap' h := by
  cases h with
  | poster k => exact PostPc.Intact.congr hintact heq
  | queue c =>
      intro p hp
      refine (hintact p hp).congr fun a ha => heq a ?_
      exact List.mem_flatMap.mpr ⟨p, hp, ha⟩
  | loop c => exact LoopPc.Intact.congr hintact heq

/-- The messages that a loop has not handed on yet. -/
def waiting (s : Mail ι) (c : Chan) : List (Fd × List UInt8) :=
  (match s.loop c with
    | .popped p => [p.value]
    | _ => []) ++ (s.queue c).map Parcel.value

structure Inv (s : Mail ι) : Prop where
  noFault : s.fault = false
  owned : Heap.Exact s.heap s.holds
  intact : ∀ h, s.IntactAt s.heap h
  order : ∀ c, s.posted c = s.used c ++ s.waiting c

theorem Inv.posting {k : Option ι} {pc : PostPc} (h : s.Inv) (hpc : s.poster k = pc) :
    pc.Intact s.heap := by
  subst hpc
  exact h.intact (.poster k)

theorem Inv.live_posting {k : Option ι} {a : Nat} (h : s.Inv) (ha : a ∈ (s.poster k).blocks) :
    s.heap a ≠ none := by
  have hholds : a ∈ s.holds (.poster k) := ha
  exact h.owned.live_of_mem hholds

variable {c : Chan} {a : Nat} {heap : Nat → Option Block}

section Posting

variable [DecidableEq ι] {k : Option ι} {pc : PostPc}

theorem holds_post_self : (s.post k heap pc).holds (.poster k) = pc.blocks := by
  simp only [holds, post, Function.update_self]

theorem holds_post_of_ne {l : MailHolder ι} (hl : l ≠ .poster k) :
    (s.post k heap pc).holds l = s.holds l := by
  cases l with
  | poster j =>
      have hj : j ≠ k := fun h => hl (h ▸ rfl)
      simp only [holds, post, Function.update_of_ne hj]
  | queue c => rfl
  | loop c => rfl

/-- A thread that posts changes blocks that it holds, or that nobody holds. -/
theorem Inv.post (h : s.Inv) (howned : Heap.Exact heap (s.post k heap pc).holds)
    (hheap : ∀ a, a ∉ (s.poster k).blocks → s.heap a ≠ none → heap a = s.heap a)
    (hpc : pc.Intact heap) : (s.post k heap pc).Inv where
  noFault := h.noFault
  owned := howned
  intact l := by
    by_cases hl : l = .poster k
    · subst hl
      simpa only [IntactAt, Mail.post, Function.update_self] using hpc
    · have hold : s.IntactAt heap l := by
        refine (h.intact l).congr fun a ha => hheap a (fun hk => hl ?_) (h.owned.live_of_mem ha)
        exact h.owned.unique l (.poster k) a ha hk
      cases l with
      | poster j =>
          have hj : j ≠ k := fun h => hl (h ▸ rfl)
          simpa only [IntactAt, Mail.post, Function.update_of_ne hj] using hold
      | queue c => exact hold
      | loop c => exact hold
  order := h.order

theorem Inv.postStay (h : s.Inv) (hblocks : pc.blocks = (s.poster k).blocks)
    (hpc : pc.Intact s.heap) : (s.post k s.heap pc).Inv := by
  have hholds : (s.post k s.heap pc).holds = s.holds := by
    funext l
    by_cases hl : l = .poster k
    · subst hl
      rw [holds_post_self, hblocks]
      rfl
    · exact holds_post_of_ne hl
  exact h.post (hholds ▸ h.owned) (fun _ _ _ => rfl) hpc

theorem Inv.postAlloc {b : Block} (h : s.Inv) (ha : s.heap a = none)
    (hblocks : pc.blocks = a :: (s.poster k).blocks)
    (hpc : pc.Intact (Function.update s.heap a (some b))) :
    (s.post k (Function.update s.heap a (some b)) pc).Inv := by
  refine h.post ?_ (fun e _ he => ?_) hpc
  · exact h.owned.alloc ha b (holds_post_self.trans hblocks) fun l hl => holds_post_of_ne hl
  · rw [Function.update_of_ne]
    rintro rfl
    exact he ha

theorem Inv.postStore {b : Block} (h : s.Inv) (ha : a ∈ (s.poster k).blocks)
    (hblocks : pc.blocks = (s.poster k).blocks)
    (hpc : pc.Intact (Function.update s.heap a (some b))) :
    (s.post k (Function.update s.heap a (some b)) pc).Inv := by
  have hholds : (s.post k (Function.update s.heap a (some b)) pc).holds = s.holds := by
    funext l
    by_cases hl : l = .poster k
    · subst hl
      rw [holds_post_self, hblocks]
      rfl
    · exact holds_post_of_ne hl
  refine h.post ?_ (fun e he _ => ?_) hpc
  · rw [hholds]
    exact h.owned.store (i := .poster k) ha b
  · rw [Function.update_of_ne]
    rintro rfl
    exact he ha

theorem Inv.postFree (h : s.Inv) (hblocks : (s.poster k).blocks.Perm (a :: pc.blocks))
    (hpc : pc.Intact (Function.update s.heap a none)) :
    (s.post k (Function.update s.heap a none) pc).Inv := by
  refine h.post ?_ (fun e he _ => ?_) hpc
  · refine h.owned.free (i := .poster k) ?_ fun l hl => holds_post_of_ne hl
    rw [holds_post_self]
    exact hblocks
  · rw [Function.update_of_ne]
    rintro rfl
    exact he (hblocks.mem_iff.mpr List.mem_cons_self)

/-- The stores of `read` and `memcpy` fit into their block. -/
theorem Inv.fillData {bytes old : List UInt8} (h : s.Inv) (ha : (s.poster k).blocks = [a])
    (hold : s.heap a = some (.data old)) (hlen : bytes.length ≤ old.length) (fd : Fd) :
    (s.fillData k a bytes (.boxing fd bytes a)).Inv := by
  have hstore : C.store old 0 bytes = .ok (bytes ++ old.drop bytes.length) := by
    have := C.store_append (a := []) (b := old) rfl hlen
    simpa using this
  simp only [Mail.fillData, hold, hstore]
  refine h.postStore (by simp [ha]) (by rw [ha]; rfl) ?_
  exact ⟨old.drop bytes.length, Function.update_self a _ _⟩

/-- The message goes from the thread to its queue. -/
theorem Inv.push {p : Parcel} (h : s.Inv) (hpc : s.poster k = .pushing p) :
    Inv { s.post k s.heap .idle with
      queue := Function.update s.queue (chan k) (s.queue (chan k) ++ [p])
      posted := Function.update s.posted (chan k) (s.posted (chan k) ++ [p.value]) } := by
  have hp : p.Intact s.heap := h.posting hpc
  constructor
  · exact h.noFault
  · refine h.owned.pass (i := .poster k) (j := .queue (chan k)) nofun p.blocks ?_ ?_ ?_
    · simp [holds, Mail.post, hpc, PostPc.blocks]
    · simp only [holds, Function.update_self, List.flatMap_append, List.flatMap_singleton]
      exact List.perm_append_comm
    · intro l hposter hqueue
      cases l with
      | poster j =>
          have hj : j ≠ k := fun h => hposter (h ▸ rfl)
          simp only [holds, Mail.post, Function.update_of_ne hj]
      | queue c =>
          have hc : c ≠ chan k := fun h => hqueue (h ▸ rfl)
          simp only [holds, Function.update_of_ne hc]
      | loop c => rfl
  · intro l
    cases l with
    | poster j =>
        by_cases hj : j = k
        · subst hj
          simp only [IntactAt, Mail.post, Function.update_self]
          trivial
        · simpa only [IntactAt, Mail.post, Function.update_of_ne hj] using h.intact (.poster j)
    | queue c =>
        by_cases hc : c = chan k
        · subst hc
          intro q hq
          simp only [Function.update_self] at hq
          rcases List.mem_append.mp hq with hold | hnew
          · exact h.intact (.queue (chan k)) q hold
          · rwa [List.mem_singleton.mp hnew]
        · simpa only [IntactAt, Mail.post, Function.update_of_ne hc] using h.intact (.queue c)
    | loop c => exact h.intact (.loop c)
  · intro c
    by_cases hc : c = chan k
    · subst hc
      simp only [waiting, Mail.post, Function.update_self, List.map_append, List.map_singleton]
      rw [h.order, waiting, List.append_assoc, List.append_assoc]
    · simp only [waiting, Mail.post, Function.update_of_ne hc]
      exact h.order c

theorem Inv.postNext {cap : Nat} {act : PostAct} (h : s.Inv)
    (hn : s.postNext cap k act = some s') : s'.Inv := by
  cases act with
  | event fd buf fresh =>
      simp only [Mail.postNext] at hn
      split at hn
      · rename_i hpc
        split_ifs at hn with hfree
        cases hn
        exact h.postAlloc hfree.1 (by rw [hpc]; rfl)
          ⟨fresh, Function.update_self buf _ _, hfree.2⟩
      · cases hn
  | read bytes =>
      simp only [Mail.postNext] at hn
      split at hn
      · rename_i fd buf hpc
        split_ifs at hn with hbytes
        cases hn
        obtain ⟨old, hold, hlen⟩ := h.posting hpc
        exact h.fillData (by rw [hpc]; rfl) hold (hlen ▸ hbytes.2) fd
      · cases hn
  | readFail =>
      simp only [Mail.postNext] at hn
      split at hn
      · rename_i fd buf hpc
        cases hn
        exact h.postStay (by rw [hpc]; rfl) trivial
      · cases hn
  | freeBuf =>
      simp only [Mail.postNext] at hn
      split at hn
      · rename_i buf hpc
        have hblocks : (s.poster k).blocks = [buf] := by rw [hpc]; rfl
        split at hn
        · cases hn
          exact h.postFree (hblocks ▸ List.Perm.refl _) trivial
        · rename_i hdead
          exact absurd hdead (h.live_posting (k := k) (by simp [hblocks]))
      · cases hn
  | call fd data =>
      simp only [Mail.postNext] at hn
      split at hn
      · rename_i hpc
        cases hn
        exact h.postStay (by rw [hpc]; rfl) trivial
      · cases hn
  | malloc buf fresh =>
      simp only [Mail.postNext] at hn
      split at hn
      · rename_i fd data hpc
        split_ifs at hn with hfree
        cases hn
        exact h.postAlloc hfree.1 (by rw [hpc]; rfl)
          ⟨fresh, Function.update_self buf _ _, hfree.2⟩
      · cases hn
  | memcpy =>
      simp only [Mail.postNext] at hn
      split at hn
      · rename_i fd data buf hpc
        cases hn
        obtain ⟨old, hold, hlen⟩ := h.posting hpc
        exact h.fillData (by rw [hpc]; rfl) hold (Nat.le_of_eq hlen.symm) fd
      · cases hn
  | mallocMsg msg =>
      simp only [Mail.postNext] at hn
      split at hn
      · rename_i fd data buf hpc
        split_ifs at hn with hfree
        cases hn
        have hdata : StartsWith s.heap buf data := h.posting hpc
        have hne : buf ≠ msg := h.owned.ne_of_dead (j := .poster k) hfree (by simp [holds, hpc,
          PostPc.blocks])
        refine h.postAlloc hfree (by rw [hpc]; rfl) ⟨?_, Function.update_self msg _ _⟩
        exact hdata.imp fun rest hrest => (Function.update_of_ne hne _ _).trans hrest
      · cases hn
  | fill =>
      simp only [Mail.postNext] at hn
      split at hn
      · rename_i fd data buf msg hpc
        obtain ⟨hdata, hmsg⟩ := h.posting hpc
        simp only [hmsg] at hn
        cases hn
        have hne : buf ≠ msg := by
          have hnodup := h.owned.nodup (.poster k)
          simp only [holds, hpc, PostPc.blocks, List.nodup_cons, List.mem_singleton] at hnodup
          exact Ne.symm hnodup.1
        refine h.postStore (by simp [hpc, PostPc.blocks]) (by rw [hpc]; rfl) ⟨?_, ?_⟩
        · exact Function.update_self msg _ _
        · exact hdata.imp fun rest hrest => (Function.update_of_ne hne _ _).trans hrest
      · cases hn
  | push =>
      simp only [Mail.postNext] at hn
      split at hn
      · rename_i p hpc
        split_ifs at hn with hroom
        cases hn
        exact h.push hpc
      · cases hn

end Posting

section Loops

variable {pc : LoopPc} {p : Parcel}

theorem holds_run_self : (s.run c heap pc).holds (.loop c) = pc.blocks := by
  simp only [holds, run, Function.update_self]

theorem holds_run_of_ne {l : MailHolder ι} (hl : l ≠ .loop c) :
    (s.run c heap pc).holds l = s.holds l := by
  cases l with
  | poster k => rfl
  | queue d => rfl
  | loop d =>
      have hd : d ≠ c := fun h => hl (h ▸ rfl)
      simp only [holds, run, Function.update_of_ne hd]

/-- A loop that has handed its message on frees a block. -/
theorem Inv.runFree (h : s.Inv) (hblocks : (s.loop c).blocks.Perm (a :: pc.blocks))
    (hpc : pc.Intact (Function.update s.heap a none))
    (hwaiting : ∀ d, (s.run c (Function.update s.heap a none) pc).waiting d = s.waiting d) :
    (s.run c (Function.update s.heap a none) pc).Inv where
  noFault := h.noFault
  owned := by
    refine h.owned.free (i := .loop c) ?_ fun l hl => holds_run_of_ne hl
    rw [holds_run_self]
    exact hblocks
  intact l := by
    by_cases hl : l = .loop c
    · subst hl
      simpa only [IntactAt, Mail.run, Function.update_self] using hpc
    · have hhas : a ∈ s.holds (.loop c) := hblocks.mem_iff.mpr List.mem_cons_self
      have hold : s.IntactAt (Function.update s.heap a none) l := by
        refine (h.intact l).congr fun e he => Function.update_of_ne ?_ _ _
        exact h.owned.ne_of_mem (Ne.symm hl) hhas he
      cases l with
      | poster k => exact hold
      | queue d => exact hold
      | loop d =>
          have hd : d ≠ c := fun h => hl (h ▸ rfl)
          simpa only [IntactAt, Mail.run, Function.update_of_ne hd] using hold
  order d := (h.order d).trans (congrArg _ (hwaiting d).symm)

/-- A loop that holds nothing back has the waiting messages of its queue. -/
theorem waiting_run (hpc : ∀ q, pc ≠ .popped q) (hloop : ∀ q, s.loop c ≠ .popped q) (d : Chan) :
    (s.run c heap pc).waiting d = s.waiting d := by
  by_cases hd : d = c
  · subst hd
    simp only [waiting, run, Function.update_self]
  · simp only [waiting, run, Function.update_of_ne hd]

theorem Inv.pop {rest : List Parcel} (h : s.Inv) (hloop : s.loop c = .popping)
    (hqueue : s.queue c = p :: rest) :
    Inv { s.run c s.heap (.popped p) with queue := Function.update s.queue c rest } := by
  have hparcels : ∀ q ∈ p :: rest, q.Intact s.heap := hqueue ▸ h.intact (.queue c)
  constructor
  · exact h.noFault
  · refine h.owned.pass (i := .queue c) (j := .loop c) nofun p.blocks ?_ ?_ ?_
    · simp [holds, hqueue]
    · simp [holds, Mail.run, hloop, LoopPc.blocks]
    · intro l hqueue hloop
      cases l with
      | poster k => rfl
      | queue d =>
          have hd : d ≠ c := fun h => hqueue (h ▸ rfl)
          simp only [holds, Function.update_of_ne hd]
      | loop d =>
          have hd : d ≠ c := fun h => hloop (h ▸ rfl)
          simp only [holds, Mail.run, Function.update_of_ne hd]
  · intro l
    cases l with
    | poster k => exact h.intact (.poster k)
    | queue d =>
        by_cases hd : d = c
        · subst hd
          simp only [IntactAt, Mail.run, Function.update_self]
          exact fun q hq => hparcels q (List.mem_cons_of_mem _ hq)
        · simpa only [IntactAt, Mail.run, Function.update_of_ne hd] using h.intact (.queue d)
    | loop d =>
        by_cases hd : d = c
        · subst hd
          simp only [IntactAt, Mail.run, Function.update_self]
          exact hparcels p List.mem_cons_self
        · simpa only [IntactAt, Mail.run, Function.update_of_ne hd] using h.intact (.loop d)
  · intro d
    by_cases hd : d = c
    · subst hd
      simp only [waiting, Mail.run, Function.update_self]
      rw [h.order, waiting, hloop, hqueue]
      rfl
    · simp only [waiting, Mail.run, Function.update_of_ne hd]
      exact h.order d

theorem Inv.looping (h : s.Inv) (hpc : s.loop c = pc) : pc.Intact s.heap := by
  subst hpc
  exact h.intact (.loop c)

theorem fields_of_intact (h : p.Intact s.heap) :
    s.fields p = some ⟨p.fd, p.data, p.bytes.length⟩ := by
  simp only [fields, h.fields]

/-- The loop hands on what was posted. -/
theorem Inv.use (h : s.Inv) (hloop : s.loop c = .popped p) :
    Inv { s.run c s.heap (.used p) with
      used := Function.update s.used c (s.used c ++ [p.value]) } := by
  have hblocks : (LoopPc.used p).blocks = (s.loop c).blocks := by rw [hloop]; rfl
  have hholds : (s.run c s.heap (.used p)).holds = s.holds := by
    funext l
    by_cases hl : l = .loop c
    · subst hl
      rw [holds_run_self, hblocks]
      rfl
    · exact holds_run_of_ne hl
  constructor
  · exact h.noFault
  · have howned : Heap.Exact s.heap (s.run c s.heap (.used p)).holds := hholds ▸ h.owned
    exact howned
  · intro l
    cases l with
    | poster k => exact h.intact (.poster k)
    | queue d => exact h.intact (.queue d)
    | loop d =>
        by_cases hd : d = c
        · subst hd
          have hp : p.Intact s.heap := h.looping hloop
          simp only [IntactAt, Mail.run, Function.update_self]
          exact hp
        · simpa only [IntactAt, Mail.run, Function.update_of_ne hd] using h.intact (.loop d)
  · intro d
    by_cases hd : d = c
    · subst hd
      simp only [waiting, Mail.run, Function.update_self]
      rw [h.order, waiting, hloop, List.append_assoc]
      rfl
    · simp only [waiting, Mail.run, Function.update_of_ne hd]
      exact h.order d

theorem Inv.loopNext {act : LoopAct} (h : s.Inv) (hn : s.loopNext c act = some s') : s'.Inv := by
  cases act with
  | pop =>
      simp only [Mail.loopNext] at hn
      split at hn
      · rename_i p rest hloop hqueue
        cases hn
        exact h.pop hloop hqueue
      · cases hn
  | use =>
      simp only [Mail.loopNext] at hn
      split at hn
      · rename_i p hloop
        have hp : p.Intact s.heap := h.looping hloop
        obtain ⟨rest, hbytes⟩ := hp.bytes
        have hlen : p.bytes.length ≤ (p.bytes ++ rest).length := by simp
        simp only [fields_of_intact hp, hbytes, if_pos hlen, List.take_left] at hn
        cases hn
        exact h.use hloop
      · cases hn
  | cleanup =>
      simp only [Mail.loopNext] at hn
      split at hn
      · rename_i p hloop
        have hp : p.Intact s.heap := h.looping hloop
        simp only [fields_of_intact hp] at hn
        cases hn
        exact h
      · cases hn
  | freeData =>
      simp only [Mail.loopNext] at hn
      split at hn
      · rename_i p hloop
        have hp : p.Intact s.heap := h.looping hloop
        obtain ⟨rest, hbytes⟩ := hp.bytes
        simp only [fields_of_intact hp, hbytes] at hn
        cases hn
        have hne : p.msg ≠ p.data := by
          have hnodup := h.owned.nodup (.loop c)
          simp only [holds, hloop, LoopPc.blocks, Parcel.blocks, List.nodup_cons,
            List.mem_singleton] at hnodup
          exact hnodup.1
        refine h.runFree ?_ ?_ (waiting_run nofun (by simp [hloop]))
        · rw [hloop]
          exact List.Perm.swap _ _ _
        · change Function.update s.heap p.data none p.msg ≠ none
          rw [Function.update_of_ne hne, hp.fields]
          exact Option.some_ne_none _
      · cases hn
  | freeMsg =>
      simp only [Mail.loopNext] at hn
      split at hn
      · rename_i p hloop
        have hlive : s.heap p.msg ≠ none := h.looping hloop
        split at hn
        · cases hn
          refine h.runFree ?_ trivial (waiting_run nofun (by simp [hloop]))
          rw [hloop]
          exact List.Perm.refl _
        · rename_i hdead
          exact absurd hdead hlive
      · cases hn

end Loops

theorem inv_start : (start : Mail ι).Inv where
  noFault := rfl
  owned := ⟨by rintro (_ | _ | _) <;> exact List.nodup_nil,
    by rintro (_ | _ | _) j a ha <;> exact absurd ha List.not_mem_nil,
    by
      intro a
      constructor
      · exact fun h => absurd rfl h
      · rintro ⟨_ | _ | _, ha⟩ <;> exact absurd ha List.not_mem_nil⟩
  intact := by
    rintro (_ | _ | _)
    · trivial
    · exact fun p hp => absurd hp List.not_mem_nil
    · trivial
  order _ := rfl

theorem inv_of_reachable [DecidableEq ι] {cap : Nat} (h : (system ι cap).Reachable s) : s.Inv := by
  refine h.invariant ?_ fun s a t _ hn hs => ?_
  · rintro s rfl
    exact inv_start
  · cases a with
    | post k a => exact hs.postNext hn
    | loop c a => exact hs.loopNext hn

end Mail

end SgMuni
