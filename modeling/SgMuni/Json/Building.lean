import SgMuni.Json.PrintNodes

/-!
# Building trees

What the functions that create and add items do to the heap: it has the trees that were built
beside the blocks of before, also where the allocator refused a call.
-/

namespace CJson

open C

/-- The allocator refuses a call although not every address is in use. -/
def Malloc.Refuses (malloc : Malloc) : Prop :=
  ∃ call cells, {a | cells a ≠ none}.Finite ∧ malloc.choose call cells = none

/-- Some allocator gives a block as long as there is one. -/
theorem Malloc.exists_not_refuses : ∃ malloc : Malloc, ¬malloc.Refuses := by
  classical
  have hunused (cells : Nat → Option Cell) (h : {a | cells a ≠ none}.Finite) :
      ∃ a, cells a = none := by
    obtain ⟨a, ha⟩ := h.exists_notMem
    exact ⟨a, not_not.mp ha⟩
  refine ⟨⟨fun _ cells => if h : ∃ a, cells a = none then some h.choose else none, ?_⟩, ?_⟩
  · intro call cells a ha
    split at ha
    next h => exact Option.some.inj ha ▸ h.choose_spec
    next => cases ha
  · rintro ⟨call, cells, hfinite, hnone⟩
    dsimp only at hnone
    rw [dif_pos (hunused cells hfinite)] at hnone
    cases hnone

namespace Tree

/-- The item with another one behind its children. -/
def append : Tree → Tree → Tree
  | .mk addr name type valueint valuedouble text children, t =>
      .mk addr name type valueint valuedouble text (children ++ [t])

/-- The item with a name at an address. -/
def named : Tree → Nat → List UInt8 → Tree
  | .mk addr _ type valueint valuedouble text children, a, name =>
      .mk addr (some (a, name)) type valueint valuedouble text children

section Lists

variable {cells cells' : Nat → Option Cell} {t u : Tree} {ts us : List Tree}
  {prev next prev' next' : Option Nat}

theorem footList_append (ts us : List Tree) : footList (ts ++ us) = footList ts ++ footList us := by
  induction ts with
  | nil => rfl
  | cons t ts ih => rw [List.cons_append, footList, footList, ih, List.append_assoc]

theorem footList_perm (h : ts.Perm us) : (footList ts).Perm (footList us) := by
  induction h with
  | nil => exact .refl _
  | cons t _ ih => exact ih.append_left _
  | swap t u l =>
      simp only [footList, ← List.append_assoc]
      exact List.perm_append_comm.append_right _
  | trans _ _ ih ih' => exact ih.trans ih'

theorem mem_footList {a : Nat} : a ∈ footList ts ↔ ∃ t ∈ ts, a ∈ foot t := by
  induction ts with
  | nil => simp [footList]
  | cons t ts ih => simp [footList, ih]

theorem addr_mem_foot (t : Tree) : t.addr ∈ foot t := by
  obtain ⟨addr, name, type, valueint, valuedouble, text, children⟩ := t
  exact List.mem_cons_self

theorem Holds.item (h : Holds cells t prev next) :
    cells t.addr = some (.item (t.node prev next)) := by
  obtain ⟨addr, name, type, valueint, valuedouble, text, children⟩ := t
  rw [Holds] at h
  exact h.1

mutual

theorem Holds.live (t : Tree) {prev next : Option Nat} (h : Holds cells t prev next) :
    ∀ a ∈ foot t, cells a ≠ none := by
  intro a ha
  cases t with
  | mk addr name type valueint valuedouble text children =>
      rw [Holds] at h
      obtain ⟨hitem, hname, htext, hchildren⟩ := h
      simp only [foot, List.mem_cons, List.mem_append, mem_stringAddr] at ha
      rcases ha with rfl | ⟨v, hv⟩ | ⟨v, hv⟩ | ha
      · exact hitem ▸ Option.some_ne_none _
      · exact hname a v hv ▸ Option.some_ne_none _
      · exact htext a v hv ▸ Option.some_ne_none _
      · exact HoldsList.live children hchildren a ha

theorem HoldsList.live (ts : List Tree) {prev next : Option Nat}
    (h : HoldsList cells ts prev next) : ∀ a ∈ footList ts, cells a ≠ none := by
  intro a ha
  cases ts with
  | nil => exact absurd ha List.not_mem_nil
  | cons t ts =>
      rw [HoldsList] at h
      rw [footList, List.mem_append] at ha
      exact ha.elim (Holds.live t h.1 a) (HoldsList.live ts h.2 a)

end

/-- The pointers of an item to its neighbours change. -/
theorem Holds.relink (h : Holds cells t prev next) (hnodup : (foot t).Nodup)
    (hitem : cells' t.addr = some (.item (t.node prev' next')))
    (hsame : ∀ a ∈ foot t, a ≠ t.addr → cells' a = cells a) : Holds cells' t prev' next' := by
  obtain ⟨addr, name, type, valueint, valuedouble, text, children⟩ := t
  rw [foot, List.nodup_cons] at hnodup
  simp only [foot, List.mem_cons, Tree.addr] at hsame
  have hrest : ∀ a ∈ stringAddr name ++ (stringAddr text ++ footList children),
      cells' a = cells a := fun a ha => hsame a (.inr ha) fun heq => hnodup.1 (heq ▸ ha)
  simp only [List.mem_append] at hrest
  rw [Holds] at h ⊢
  exact ⟨hitem, h.2.1.congr fun a ha => hrest a (.inl ha),
    h.2.2.1.congr fun a ha => hrest a (.inr (.inl ha)),
    h.2.2.2.congr children fun a ha => hrest a (.inr (.inr ha))⟩

theorem headAddr_append : headAddr (ts ++ us) = (headAddr ts).or (headAddr us) := by
  cases ts <;> simp [headAddr]

theorem lastAddr_append_singleton (ts : List Tree) (t : Tree) :
    lastAddr (ts ++ [t]) = some t.addr := by
  simp [lastAddr]

theorem lastAddr_cons (t : Tree) (ts : List Tree) :
    lastAddr (t :: ts) = (lastAddr ts).or (some t.addr) := by
  cases ts <;> simp [lastAddr, List.getLast?_cons]

theorem holdsList_append : HoldsList cells (ts ++ us) prev next ↔
    HoldsList cells ts prev ((headAddr us).or next) ∧
      HoldsList cells us ((lastAddr ts).or prev) next := by
  induction ts generalizing prev with
  | nil => simp [HoldsList, lastAddr]
  | cons t ts ih =>
      rw [List.cons_append, HoldsList, HoldsList, ih, headAddr_append, lastAddr_cons,
        Option.or_assoc, Option.or_assoc, and_assoc]
      rfl

end Lists

section Links

variable {cells : Nat → Option Cell} {t u : Tree} {ts : List Tree} {prev next : Option Nat}

/-- The pointer behind a list changes in its last item. -/
theorem HoldsList.setNext (h : HoldsList cells (ts ++ [t]) prev next)
    (hnodup : (footList (ts ++ [t])).Nodup) (next' : Option Nat) :
    ∃ node, cells t.addr = some (.item node) ∧
      HoldsList (Function.update cells t.addr (some (.item { node with next := next' })))
        (ts ++ [t]) prev next' := by
  rw [footList_append, footList, footList, List.append_nil, List.nodup_append] at hnodup
  obtain ⟨-, hnodup, hdisjoint⟩ := hnodup
  obtain ⟨hfront, hlast, -⟩ := holdsList_append.mp h
  refine ⟨_, hlast.item, holdsList_append.mpr ⟨?_, ?_, trivial⟩⟩
  · refine hfront.congr ts fun a ha => Function.update_of_ne ?_ _ _
    rintro rfl
    exact hdisjoint _ ha _ (addr_mem_foot t) rfl
  · refine hlast.relink hnodup ?_ fun a _ ha => Function.update_of_ne ha _ _
    obtain ⟨addr, name, type, valueint, valuedouble, text, children⟩ := t
    exact Function.update_self _ _ _

/-- The pointer in front of a list changes in its first item. -/
theorem HoldsList.setPrev (h : HoldsList cells (t :: ts) prev next)
    (hnodup : (footList (t :: ts)).Nodup) (prev' : Option Nat) :
    ∃ node, cells t.addr = some (.item node) ∧ node.prev = prev ∧
      HoldsList (Function.update cells t.addr (some (.item { node with prev := prev' })))
        (t :: ts) prev' next := by
  rw [footList, List.nodup_append] at hnodup
  obtain ⟨hnodup, -, hdisjoint⟩ := hnodup
  rw [HoldsList] at h
  refine ⟨_, h.1.item, by cases t; rfl, ?_⟩
  rw [HoldsList]
  refine ⟨h.1.relink hnodup ?_ fun a _ ha => Function.update_of_ne ha _ _, ?_⟩
  · obtain ⟨addr, name, type, valueint, valuedouble, text, children⟩ := t
    exact Function.update_self _ _ _
  · refine h.2.congr ts fun a ha => Function.update_of_ne ?_ _ _
    rintro rfl
    exact hdisjoint _ (addr_mem_foot t) _ ha rfl

end Links

section Appending

variable {m : Memory} {t u : Tree}

theorem foot_append (t u : Tree) : (foot (t.append u)).Perm (foot t ++ foot u) := by
  obtain ⟨addr, name, type, valueint, valuedouble, text, children⟩ := t
  simp only [append, foot, footList_append, footList, List.append_nil, List.cons_append,
    List.append_assoc]
  exact .refl _

/-- The stores that put an item behind a list of children. -/
theorem link_children {children : List Tree} (hne : children ≠ [])
    (h : HoldsList m.cells children (lastAddr children) none) (hu : Holds m.cells u none none)
    (hnodup : (footList children ++ foot u).Nodup) :
    ∃ c l m₂ m₃ first, headAddr children = some c ∧ m.load c = .ok first ∧
      first.prev = some l ∧ suffixObject l u.addr m = .ok m₂ ∧
      m₂.store c (fun first => { first with prev := some u.addr }) = .ok m₃ ∧
      m₃.calls = m.calls ∧
      (∀ a, a ∉ footList children → a ∉ foot u → m₂.cells a = m.cells a ∧
        m₃.cells a = m.cells a) ∧
      HoldsList m₃.cells (children ++ [u]) (some u.addr) none := by
  obtain ⟨hnodupC, hnodupU, hdisjoint⟩ := List.nodup_append.mp hnodup
  obtain ⟨init, l, hlast⟩ : ∃ init l, children = init ++ [l] :=
    ⟨children.dropLast, children.getLast hne, (List.dropLast_append_getLast hne).symm⟩
  have hl : lastAddr children = some l.addr := hlast ▸ lastAddr_append_singleton init l
  have hlmem : l.addr ∈ footList children :=
    mem_footList.mpr ⟨l, by simp [hlast], addr_mem_foot l⟩
  have hlu : l.addr ≠ u.addr := hdisjoint _ hlmem _ (addr_mem_foot u)
  -- The last child points to the new one, and the new one to the last child.
  obtain ⟨node, hnode, hnext⟩ := HoldsList.setNext (hlast ▸ h) (hlast ▸ hnodupC) (some u.addr)
  rw [← hlast, hl] at hnext
  set cells₁ := Function.update m.cells l.addr (some (.item { node with next := some u.addr }))
    with hcells₁
  have hu₁ : Holds cells₁ u none none := Holds.congr u hu fun a ha =>
    Function.update_of_ne (fun heq => hdisjoint _ hlmem a ha heq.symm) _ _
  set cells₂ := Function.update cells₁ u.addr
    (some (.item { u.node none none with prev := some l.addr })) with hcells₂
  have hsuffix : suffixObject l.addr u.addr m = .ok { m with cells := cells₂ } := by
    rw [suffixObject, Memory.store_eq hnode, Outcome.ok_bind, Memory.store_eq hu₁.item]
  have hu₂ : Holds cells₂ u (some l.addr) none := by
    refine Holds.relink hu₁ hnodupU ?_ fun a _ ha => Function.update_of_ne ha _ _
    cases u
    exact Function.update_self _ _ _
  have hchildren₂ : HoldsList cells₂ children (some l.addr) (some u.addr) :=
    HoldsList.congr children hnext fun a ha =>
      Function.update_of_ne (fun heq => hdisjoint a ha _ (addr_mem_foot u) heq) _ _
  -- The first child points to the new one as the last one.
  obtain ⟨c, rest, rfl⟩ := List.exists_cons_of_ne_nil hne
  have hcmem : c.addr ∈ footList (c :: rest) :=
    mem_footList.mpr ⟨c, List.mem_cons_self, addr_mem_foot c⟩
  obtain ⟨first, hfirst, -, hchildren₃⟩ := HoldsList.setPrev hchildren₂ hnodupC (some u.addr)
  have hload : m.load c.addr = .ok (c.node (lastAddr (c :: rest)) ((headAddr rest).or none)) := by
    rw [HoldsList] at h
    exact Memory.load_eq h.1.item
  refine ⟨c.addr, l.addr, { m with cells := cells₂ }, _, _, rfl, hload, ?_, hsuffix,
    Memory.store_eq hfirst _, rfl, fun a ha hau => ?_, holdsList_append.mpr ⟨hchildren₃, ?_⟩⟩
  · cases c
    exact hl
  · have hsame₂ : cells₂ a = m.cells a := by
      rw [hcells₂, Function.update_of_ne (ne_of_mem_of_not_mem (addr_mem_foot u) hau).symm,
        hcells₁, Function.update_of_ne (ne_of_mem_of_not_mem hlmem ha).symm]
    refine ⟨hsame₂, ?_⟩
    dsimp only
    rw [Function.update_of_ne (ne_of_mem_of_not_mem hcmem ha).symm, hsame₂]
  · rw [hl]
    refine ⟨Holds.congr u hu₂ fun a ha => ?_, trivial⟩
    exact Function.update_of_ne (fun heq => hdisjoint _ hcmem a ha heq.symm) _ _

section Strings

variable {addr : Nat} {name text : Option (Nat × List UInt8)} {type : NodeType} {valueint : Int}
  {valuedouble : Double} {children : List Tree}

/-- The strings of an item are blocks of it, but neither the item nor below it. -/
theorem mem_foot_of_string
    (hnodup : (foot (mk addr name type valueint valuedouble text children)).Nodup)
    {a : Nat} (ha : a ∈ stringAddr name ∨ a ∈ stringAddr text) :
    a ∈ foot (mk addr name type valueint valuedouble text children) ∧ a ≠ addr ∧
      a ∉ footList children := by
  rw [foot, List.nodup_cons, List.mem_append, List.mem_append] at hnodup
  refine ⟨?_, fun heq => ?_, fun hbelow => ?_⟩
  · rw [foot, List.mem_cons, List.mem_append, List.mem_append]
    exact .inr (ha.imp_right .inl)
  · subst heq
    exact hnodup.1 (ha.imp_right .inl)
  · obtain ⟨-, hrest, hname⟩ := List.nodup_append.mp hnodup.2
    rcases ha with ha | ha
    · exact hname a ha a (List.mem_append_right _ hbelow) rfl
    · exact (List.nodup_append.mp hrest).2.2 a ha a hbelow rfl

/-- The item with another child, where only the item, its children and the new one change. -/
theorem Holds.appended {cells cells' : Nat → Option Cell}
    (h : Holds cells (mk addr name type valueint valuedouble text children) none none)
    (hnodup : (foot (mk addr name type valueint valuedouble text children) ++ foot u).Nodup)
    (hitem : cells' addr = some (.item ((mk addr name type valueint valuedouble text
      (children ++ [u])).node none none)))
    (hsame : ∀ a, a ≠ addr → a ∉ footList children → a ∉ foot u → cells' a = cells a)
    (hchildren : HoldsList cells' (children ++ [u]) (some u.addr) none) :
    Holds cells' ((mk addr name type valueint valuedouble text children).append u) none none := by
  obtain ⟨hnodupT, -, hdisjoint⟩ := List.nodup_append.mp hnodup
  have hstring {a : Nat} (ha : a ∈ stringAddr name ∨ a ∈ stringAddr text) :
      cells' a = cells a := by
    obtain ⟨hmem, hne, hbelow⟩ := mem_foot_of_string hnodupT ha
    exact hsame a hne hbelow fun hau => hdisjoint a hmem a hau rfl
  rw [Holds] at h
  rw [append, Holds, lastAddr_append_singleton]
  exact ⟨hitem, h.2.1.congr fun a ha => hstring (.inl ha),
    h.2.2.1.congr fun a ha => hstring (.inr ha), hchildren⟩

end Strings

/-- An item that stands alone becomes the last child of another one. No other block takes part
in it. -/
theorem addItemToArray_spec (ht : Holds m.cells t none none) (hu : Holds m.cells u none none)
    (hnodup : (foot t ++ foot u).Nodup) :
    ∃ m', addItemToArray (some t.addr) (some u.addr) m = .ok (true, m') ∧
      Holds m'.cells (t.append u) none none ∧
      ∀ a, a ∉ foot t → a ∉ foot u → m'.cells a = m.cells a := by
  obtain ⟨addr, name, type, valueint, valuedouble, text, children⟩ := t
  have hitem : m.cells addr = _ := ht.item
  obtain ⟨hnodupT, hnodupU, hdisjoint⟩ := List.nodup_append.mp hnodup
  have hne : addr ≠ u.addr := hdisjoint addr List.mem_cons_self u.addr (addr_mem_foot u)
  have hown : addr ∉ foot u := fun ha => hdisjoint addr List.mem_cons_self addr ha rfl
  have hnotFoot {a : Nat} (ha : a ∉ foot (mk addr name type valueint valuedouble text children)) :
      a ≠ addr ∧ a ∉ footList children := by
    rw [foot, List.mem_cons, List.mem_append, List.mem_append] at ha
    exact ⟨fun h => ha (.inl h), fun h => ha (.inr (.inr (.inr h)))⟩
  by_cases hempty : children = []
  · subst hempty
    set cells₁ := Function.update m.cells addr (some (.item
      { (mk addr name type valueint valuedouble text []).node none none with
        child := some u.addr }))
      with hcells₁
    have hu₁ : Holds cells₁ u none none := hu.congr u fun a ha =>
      Function.update_of_ne (ne_of_mem_of_not_mem ha hown) _ _
    set cells₂ := Function.update cells₁ u.addr
      (some (.item { u.node none none with prev := some u.addr, next := none })) with hcells₂
    have hsame {a : Nat} (ha : a ≠ addr) (hau : a ∉ foot u) : cells₂ a = m.cells a := by
      rw [hcells₂, Function.update_of_ne (ne_of_mem_of_not_mem (addr_mem_foot u) hau).symm,
        hcells₁, Function.update_of_ne ha]
    refine ⟨{ m with cells := cells₂ }, ?_, ht.appended hnodup ?_ (fun a ha _ hau => hsame ha hau)
      ⟨?_, trivial⟩, fun a ha hau => hsame (hnotFoot ha).1 hau⟩
    · change addItemToArray (some addr) (some u.addr) m = _
      simp only [addItemToArray, if_neg hne]
      rw [Memory.load_eq hitem, Outcome.ok_bind]
      dsimp only [node, headAddr, List.head?_nil, Option.map_none]
      rw [Memory.store_eq hitem, Outcome.ok_bind, Memory.store_eq hu₁.item, Outcome.ok_bind]
    · change cells₂ addr = _
      rw [hcells₂, Function.update_of_ne hne]
      exact Function.update_self _ _ _
    · refine hu₁.relink hnodupU ?_ fun a _ ha => Function.update_of_ne ha _ _
      cases u
      exact Function.update_self _ _ _
  · have hnodupC : (footList children ++ foot u).Nodup := by
      have hsub : (footList children ++ foot u).Sublist
          (foot (mk addr name type valueint valuedouble text children) ++ foot u) := by
        refine List.Sublist.append_right ?_ _
        rw [foot, ← List.append_assoc]
        exact (List.sublist_append_right _ _).cons _
      exact hnodup.sublist hsub
    have hchildren : HoldsList m.cells children (lastAddr children) none := by
      rw [Holds] at ht
      exact ht.2.2.2
    obtain ⟨c, l, m₂, m₃, first, hhead, hload, hprev, hsuffix, hstore, -, hsame, hlist⟩ :=
      link_children hempty hchildren hu hnodupC
    have hbelow : addr ∉ footList children := by
      rw [foot, List.nodup_cons, List.mem_append, List.mem_append] at hnodupT
      exact fun h => hnodupT.1 (.inr (.inr h))
    have hitem₂ : m₂.cells addr = m.cells addr := (hsame addr hbelow hown).1
    have hitem₃ : m₃.cells addr = m.cells addr := (hsame addr hbelow hown).2
    refine ⟨m₃, ?_, ht.appended hnodup ?_ (fun a _ ha hau => (hsame a ha hau).2) hlist,
      fun a ha hau => (hsame a (hnotFoot ha).2 hau).2⟩
    · change addItemToArray (some addr) (some u.addr) m = _
      simp only [addItemToArray, if_neg hne]
      rw [Memory.load_eq hitem, Outcome.ok_bind]
      dsimp only [node]
      rw [hhead]
      dsimp only
      rw [hload, Outcome.ok_bind]
      simp only [hprev]
      rw [hsuffix, Outcome.ok_bind, Memory.load_eq (hitem₂.trans hitem), Outcome.ok_bind]
      dsimp only [node]
      rw [hhead]
      dsimp only
      rw [hstore, Outcome.ok_bind]
    · rw [hitem₃, hitem]
      simp only [node, headAddr_append, hhead, Option.some_or]

end Appending

end Tree

open CJson.Tree

/-- The heap has the blocks of before, and beside them the trees that were built. -/
structure Grown (base : Nat → Option Cell) (m : Memory) (built : List Tree) : Prop where
  finite : {a | base a ≠ none}.Finite
  nodup : (footList built).Nodup
  fresh : ∀ a ∈ footList built, base a = none
  same : ∀ a, a ∉ footList built → m.cells a = base a
  holds : ∀ t ∈ built, Holds m.cells t none none

namespace Grown

variable {base : Nat → Option Cell} {m m' : Memory} {built : List Tree} {t u : Tree}

theorem start (hfinite : {a | m.cells a ≠ none}.Finite) : Grown m.cells m [] where
  finite := hfinite
  nodup := List.nodup_nil
  fresh _ ha := absurd ha List.not_mem_nil
  same _ _ := rfl
  holds _ ht := absurd ht List.not_mem_nil

theorem perm (h : Grown base m built) {built' : List Tree} (hperm : built.Perm built') :
    Grown base m built' where
  finite := h.finite
  nodup := (footList_perm hperm).nodup_iff.mp h.nodup
  fresh a ha := h.fresh a ((footList_perm hperm).mem_iff.mpr ha)
  same a ha := h.same a fun hmem => ha ((footList_perm hperm).mem_iff.mp hmem)
  holds t ht := h.holds t (hperm.mem_iff.mpr ht)

/-- Only finitely many blocks are in use. -/
theorem finite_cells (h : Grown base m built) : {a | m.cells a ≠ none}.Finite := by
  refine (h.finite.union (footList built).finite_toSet).subset fun a ha => ?_
  by_cases hmem : a ∈ footList built
  · exact .inr hmem
  · exact .inl fun hnone => ha ((h.same a hmem).trans hnone)

theorem live (h : Grown base m built) {a : Nat} (ha : a ∈ footList built) : m.cells a ≠ none := by
  obtain ⟨t, ht, ha⟩ := mem_footList.mp ha
  exact (h.holds t ht).live t a ha

/-- Some of the trees change, by blocks that were not in use and blocks that are freed; the
others are not affected. -/
theorem change (old new : List Tree) (h : Grown base m (old ++ built))
    (hholds : ∀ t ∈ new, Holds m'.cells t none none) (hnodup : (footList new).Nodup)
    (hnew : ∀ a ∈ footList new, a ∈ footList old ∨ m.cells a = none)
    (hold : ∀ a ∈ footList old, a ∉ footList new → m'.cells a = none)
    (hsame : ∀ a, a ∉ footList old → a ∉ footList new → m'.cells a = m.cells a) :
    Grown base m' (new ++ built) := by
  have hparts := h.nodup
  rw [footList_append, List.nodup_append] at hparts
  obtain ⟨-, hnodupBuilt, hdisjoint⟩ := hparts
  have hmem {a : Nat} : a ∈ footList (old ++ built) ↔ a ∈ footList old ∨ a ∈ footList built := by
    rw [footList_append, List.mem_append]
  have hapart {a : Nat} (ha : a ∈ footList new) : a ∉ footList built := by
    intro hbuilt
    rcases hnew a ha with hold | hdead
    · exact hdisjoint a hold a hbuilt rfl
    · exact h.live (hmem.mpr (.inr hbuilt)) hdead
  refine ⟨h.finite, ?_, ?_, ?_, ?_⟩
  · rw [footList_append, List.nodup_append]
    exact ⟨hnodup, hnodupBuilt, fun a ha b hb hab => hapart ha (hab ▸ hb)⟩
  · intro a ha
    rw [footList_append, List.mem_append] at ha
    rcases ha with ha | ha
    · rcases hnew a ha with hold | hdead
      · exact h.fresh a (hmem.mpr (.inl hold))
      · rw [← h.same a fun hlive => h.live hlive hdead]
        exact hdead
    · exact h.fresh a (hmem.mpr (.inr ha))
  · intro a ha
    rw [footList_append, List.mem_append, not_or] at ha
    by_cases hwas : a ∈ footList old
    · rw [hold a hwas ha.1, h.fresh a (hmem.mpr (.inl hwas))]
    · rw [hsame a hwas ha.1]
      exact h.same a fun hlive => (hmem.mp hlive).elim hwas ha.2
  · intro t ht
    rcases List.mem_append.mp ht with ht | ht
    · exact hholds t ht
    · have hbuilt {a : Nat} (ha : a ∈ foot t) : a ∈ footList built := mem_footList.mpr ⟨t, ht, ha⟩
      refine (h.holds t (List.mem_append_right _ ht)).congr t fun a ha => hsame a ?_ ?_
      · exact fun hwas => hdisjoint a hwas a (hbuilt ha) rfl
      · exact fun hnow => hapart hnow (hbuilt ha)

/-- A tree is deleted. -/
theorem delete (h : Grown base m (t :: built)) : ∃ m',
    (∀ fuel, size t ≤ fuel → cJsonDelete fuel (some t.addr) m = .ok m') ∧ Grown base m' built := by
  have hnodup : (footList [t]).Nodup := by
    rw [footList_singleton]
    exact (List.nodup_append.mp h.nodup).1
  have hlist : HoldsList m.cells [t] none none :=
    ⟨h.holds t List.mem_cons_self, trivial⟩
  refine ⟨_, fun fuel hfuel =>
    cJsonDelete_list fuel [t] (by simpa [sizeList] using hfuel) hlist hnodup, ?_⟩
  refine change [t] [] h (fun t ht => absurd ht List.not_mem_nil)
    List.nodup_nil (fun a ha => absurd ha List.not_mem_nil) (fun a ha _ => if_pos ha)
    fun a ha _ => if_neg ha

/-- The blocks of before stay as they are. -/
theorem same_of_live (h : Grown base m built) {a : Nat} (ha : base a ≠ none) :
    m.cells a = base a :=
  h.same a fun hmem => ha (h.fresh a hmem)

/-- With no tree left the heap is the one of before. -/
theorem cells_eq (h : Grown base m []) : m.cells = base :=
  funext fun a => h.same a List.not_mem_nil

end Grown

section Creation

variable {base : Nat → Option Cell} {m : Memory} {built : List Tree} {malloc : Malloc}
  {t u : Tree}

/-- A call of the allocator: it refuses, or gives a block that nobody has. -/
theorem Grown.allocate_cases (h : Grown base m built) (malloc : Malloc) (cell : Cell) :
    malloc.Refuses ∧ m.allocate malloc cell = (none, { m with calls := m.calls + 1 }) ∨
      ∃ a, m.cells a = none ∧ m.allocate malloc cell =
        (some a, { cells := Function.update m.cells a (some cell), calls := m.calls + 1 }) := by
  unfold Memory.allocate
  cases hchoose : malloc.choose m.calls m.cells with
  | none => exact .inl ⟨⟨_, _, h.finite_cells, hchoose⟩, rfl⟩
  | some a => exact .inr ⟨a, malloc.unused _ _ a hchoose, rfl⟩

theorem Grown.calls (h : Grown base m built) (calls : Nat) : Grown base { m with calls } built :=
  ⟨h.finite, h.nodup, h.fresh, h.same, h.holds⟩

/-- A new item without strings and children. -/
def leaf (addr : Nat) (type : NodeType) (valueint : Int) (valuedouble : Double) : Tree :=
  .mk addr none type valueint valuedouble none []

/-- A tree that meets `P` was built at `item` beside others, unless the allocator refused a
call. -/
structure Has (malloc : Malloc) (base : Nat → Option Cell) (built : List Tree) (P : Tree → Prop)
    (T : Option Tree) (item : Option Nat) (m : Memory) : Prop where
  pointer : T.map addr = item
  grown : Grown base m (T.toList ++ built)
  meets : ∀ t ∈ T, P t
  refused : T = none → malloc.Refuses

/-- The function gives an item that meets `P` beside the trees of before, or, where the
allocator refuses a call, the null pointer and the trees of before. -/
def Gives (malloc : Malloc) (base : Nat → Option Cell) (built : List Tree) (P : Tree → Prop)
    (x : Outcome (Option Nat × Memory)) : Prop :=
  ∃ T item m', x = .ok (item, m') ∧ Has malloc base built P T item m'

theorem Grown.store_leaf (h : Grown base m built) {a : Nat} (ha : m.cells a = none)
    (type : NodeType) (valueint : Int) (valuedouble : Double) (calls : Nat) :
    Grown base ⟨Function.update m.cells a
      (some (.item ((leaf a type valueint valuedouble).node none none))), calls⟩
      (leaf a type valueint valuedouble :: built) := by
  have hfoot : footList [leaf a type valueint valuedouble] = [a] := rfl
  refine Grown.change [] [leaf a type valueint valuedouble] h ?_ ?_ ?_ ?_ ?_
  · intro t ht
    rw [List.mem_singleton.mp ht, leaf, Holds]
    exact ⟨Function.update_self _ _ _, nofun, nofun, trivial⟩
  · exact hfoot ▸ List.nodup_singleton a
  · intro b hb
    rw [hfoot, List.mem_singleton] at hb
    exact .inr (hb ▸ ha)
  · exact fun b hb => absurd hb List.not_mem_nil
  · intro b _ hb
    rw [hfoot, List.mem_singleton] at hb
    exact Function.update_of_ne hb _ _

theorem create_gives (h : Grown base m built) {f : Node → Node} {type : NodeType} {valueint : Int}
    {valuedouble : Double} (hf : ∀ a, f .zero = (leaf a type valueint valuedouble).node none none) :
    Gives malloc base built (fun t => ∃ a, t = leaf a type valueint valuedouble)
      (create malloc f m) := by
  unfold create cJsonNewItem
  rcases h.allocate_cases malloc (.item .zero) with ⟨hrefuses, hnone⟩ | ⟨a, ha, hsome⟩
  · rw [hnone]
    exact ⟨none, _, _, rfl, rfl, h.calls _, nofun, fun _ => hrefuses⟩
  · rw [hsome]
    have hitem : (Memory.mk (Function.update m.cells a (some (.item .zero)))
        (m.calls + 1)).cells a = some (.item .zero) := Function.update_self _ _ _
    dsimp only
    rw [Memory.store_eq hitem, Outcome.ok_bind, Function.update_idem, hf a]
    exact ⟨some (leaf a type valueint valuedouble), _, _, rfl, rfl, h.store_leaf ha _ _ _ _,
      fun u hu => ⟨a, (Option.some.inj hu).symm⟩, nofun⟩

theorem cJsonCreateObject_gives (h : Grown base m built) :
    Gives malloc base built (fun t => ∃ a, t = leaf a .object 0 (toDouble 0))
      (cJsonCreateObject malloc m) :=
  create_gives h fun _ => rfl

theorem cJsonCreateArray_gives (h : Grown base m built) :
    Gives malloc base built (fun t => ∃ a, t = leaf a .array 0 (toDouble 0))
      (cJsonCreateArray malloc m) :=
  create_gives h fun _ => rfl

theorem cJsonCreateNumber_gives (h : Grown base m built) (num : Double) :
    Gives malloc base built (fun t => ∃ a, t = leaf a .number (saturate num) num)
      (cJsonCreateNumber malloc num m) :=
  create_gives h fun _ => rfl

/-- A string item with its string at another address. -/
def stringLeaf (addr text : Nat) (string : List UInt8) : Tree :=
  .mk addr none .string 0 (toDouble 0) (some (text, string)) []

/-- The string is copied for an item that was created, or the item is deleted. -/
theorem valuestring_gives {a : Nat} (h : Grown base m (leaf a .string 0 (toDouble 0) :: built))
    (string : List UInt8) :
    Gives malloc base built (fun t => ∃ a b, t = stringLeaf a b (cString string))
      (match cJsonStrdup malloc string m with
      | (valuestring, m) =>
          (m.store a fun node => { node with valuestring }).bind fun m =>
          if valuestring = none then (cJsonDelete 1 (some a) m).bind fun m => .ok (none, m)
          else .ok (some a, m)) := by
  have hitem : m.cells a = some (.item ((leaf a .string 0 (toDouble 0)).node none none)) :=
    (h.holds _ List.mem_cons_self).item
  unfold cJsonStrdup
  generalize cString string = string
  rcases h.allocate_cases malloc (.chars string) with ⟨hrefuses, hnone⟩ | ⟨b, hb, hsome⟩
  · have hsame : Function.update m.cells a
        (some (.item ((leaf a .string 0 (toDouble 0)).node none none))) = m.cells :=
      Function.update_eq_self_iff.mpr hitem.symm
    have hstore := Memory.store_eq (m := { m with calls := m.calls + 1 }) hitem
      fun node => { node with valuestring := none }
    have hstore' : Memory.store { m with calls := m.calls + 1 } a
        (fun node => { node with valuestring := none }) = .ok { m with calls := m.calls + 1 } :=
      hstore.trans (congrArg (fun cells => Outcome.ok (Memory.mk cells (m.calls + 1))) hsame)
    obtain ⟨m', hdelete, hgrown⟩ := (h.calls (m.calls + 1)).delete
    have hdelete : cJsonDelete 1 (some a) { m with calls := m.calls + 1 } = .ok m' :=
      hdelete 1 le_rfl
    rw [hnone]
    dsimp only
    rw [hstore', Outcome.ok_bind, if_pos rfl, hdelete, Outcome.ok_bind]
    exact ⟨none, _, m', rfl, rfl, hgrown, nofun, fun _ => hrefuses⟩
  · have hne : a ≠ b := by
      rintro rfl
      rw [hb] at hitem
      exact absurd hitem nofun
    have hitem' : (Memory.mk (Function.update m.cells b (some (.chars string)))
        (m.calls + 1)).cells a = some (.item ((leaf a .string 0 (toDouble 0)).node none none)) := by
      dsimp only
      rw [Function.update_of_ne hne, hitem]
    rw [hsome]
    dsimp only
    rw [Memory.store_eq hitem', Outcome.ok_bind, if_neg (Option.some_ne_none b)]
    refine ⟨some (stringLeaf a b string), _, _, rfl, rfl, ?_,
      fun u hu => ⟨a, b, (Option.some.inj hu).symm⟩, nofun⟩
    have hold : footList [leaf a .string 0 (toDouble 0)] = [a] := rfl
    have hnew : footList [stringLeaf a b string] = [a, b] := rfl
    refine Grown.change [leaf a .string 0 (toDouble 0)] [stringLeaf a b string] h ?_ ?_ ?_ ?_ ?_
    · intro t ht
      rw [List.mem_singleton.mp ht, stringLeaf, Holds]
      refine ⟨Function.update_self _ _ _, nofun, fun c v hs => ?_, trivial⟩
      obtain ⟨rfl, rfl⟩ : b = c ∧ string = v := by simpa using hs
      dsimp only
      rw [Function.update_of_ne (Ne.symm hne), Function.update_self]
    · rw [hnew]
      simp [hne]
    · intro c hc
      rw [hnew] at hc
      rw [hold]
      simp only [List.mem_cons, List.not_mem_nil, or_false] at hc ⊢
      rcases hc with rfl | rfl
      · exact .inl rfl
      · exact .inr hb
    · intro c hc hnot
      rw [hold, List.mem_singleton] at hc
      rw [hnew] at hnot
      simp [hc] at hnot
    · intro c _ hc
      rw [hnew] at hc
      simp only [List.mem_cons, List.not_mem_nil, or_false, not_or] at hc
      dsimp only
      rw [Function.update_of_ne hc.1, Function.update_of_ne hc.2]

theorem cJsonCreateString_gives (h : Grown base m built) (string : List UInt8) :
    Gives malloc base built (fun t => ∃ a b, t = stringLeaf a b (cString string))
      (cJsonCreateString malloc string m) := by
  unfold cJsonCreateString cJsonNewItem
  rcases h.allocate_cases malloc (.item .zero) with ⟨hrefuses, hnone⟩ | ⟨a, ha, hsome⟩
  · rw [hnone]
    exact ⟨none, _, _, rfl, rfl, h.calls _, nofun, fun _ => hrefuses⟩
  · have hitem : (Memory.mk (Function.update m.cells a (some (.item .zero)))
        (m.calls + 1)).cells a = some (.item .zero) := Function.update_self _ _ _
    rw [hsome]
    dsimp only
    rw [Memory.store_eq hitem, Outcome.ok_bind, Function.update_idem]
    exact valuestring_gives (h.store_leaf ha .string 0 _ _) string

end Creation

section Adding

variable {base : Nat → Option Cell} {m : Memory} {built : List Tree} {malloc : Malloc}
  {t u : Tree}

/-- The name of an item is freed, and a new block becomes its name. -/
theorem Grown.rename (h : Grown base m (u :: built)) {k : Nat} (hk : m.cells k = none)
    (name : List UInt8) : ∃ m',
      ((Memory.mk (Function.update m.cells k (some (.chars name))) (m.calls + 1)).freeString u.addr
        Node.stringIsConst Node.string id).bind (fun m => m.store u.addr
          fun node => { node with string := some k, stringIsConst := false }) = .ok m' ∧
      Grown base m' (u.named k name :: built) := by
  have hholds := h.holds u List.mem_cons_self
  have hdead : k ∉ foot u := fun hmem => hholds.live u k hmem hk
  have hnodup : (foot u).Nodup := (List.nodup_append.mp h.nodup).1
  obtain ⟨addr, old, type, valueint, valuedouble, text, children⟩ := u
  have hitem : m.cells addr = _ := hholds.item
  have hfoot : foot (Tree.mk addr old type valueint valuedouble text children) =
      addr :: (stringAddr old ++ (stringAddr text ++ footList children)) := rfl
  set below := stringAddr text ++ footList children with hbelow
  rw [hfoot, List.mem_cons, List.mem_append, not_or, not_or] at hdead
  rw [hfoot, List.nodup_cons, List.mem_append, not_or, List.nodup_append] at hnodup
  obtain ⟨⟨haddrOld, haddrBelow⟩, -, hnodupBelow, hdisjoint⟩ := hnodup
  rw [Holds] at hholds
  obtain ⟨-, hold, htext, hchildren⟩ := hholds
  have hitem₁ : (Memory.mk (Function.update m.cells k (some (.chars name)))
      (m.calls + 1)).cells addr =
      some (.item ((Tree.mk addr old type valueint valuedouble text children).node none none)) := by
    dsimp only
    rw [Function.update_of_ne (Ne.symm hdead.1), hitem]
  obtain ⟨m₂, hfree, -, hitem₂, hcells₂⟩ := freeString_spec Node.stringIsConst Node.string id
    hitem₁ rfl (fun _ => rfl) fun a ha => by
      obtain ⟨⟨a, v⟩, hs, rfl⟩ := Option.map_eq_some_iff.mp ha
      have hmem := mem_stringAddr.mpr ⟨v, hs⟩
      refine ⟨ne_of_mem_of_not_mem hmem haddrOld, ?_⟩
      dsimp only
      rw [Function.update_of_ne (ne_of_mem_of_not_mem hmem hdead.2.1), hold a v hs]
      exact Option.some_ne_none _
  have hcells (b : Nat) (hb : b ≠ addr) : m₂.cells b =
      if b ∈ stringAddr old then none else if b = k then some (.chars name) else m.cells b := by
    rw [hcells₂ b hb]
    change (if b ∈ stringAddr old then none else Function.update m.cells k _ b) = _
    rw [Function.update_apply]
  refine ⟨⟨Function.update m₂.cells addr
    (some (.item ((Tree.mk addr (some (k, name)) type valueint valuedouble text children).node none
      none))), m₂.calls⟩, ?_, ?_⟩
  · change ((Memory.mk _ _).freeString addr Node.stringIsConst Node.string id).bind _ = _
    rw [hfree, Outcome.ok_bind]
    exact Memory.store_eq hitem₂ _
  have hnewfoot :
      footList [named (Tree.mk addr old type valueint valuedouble text children) k name] =
        addr :: k :: below := by
    simp [named, footList, foot, stringAddr, hbelow]
  have holdfoot : footList [Tree.mk addr old type valueint valuedouble text children] =
      addr :: (stringAddr old ++ below) := by
    rw [footList, footList, List.append_nil, hfoot]
  have hkeep {a : Nat} (ha : a ∈ below) : Function.update m₂.cells addr
      (some (.item ((Tree.mk addr (some (k, name)) type valueint valuedouble text
        children).node none none))) a = m.cells a := by
    have hne : a ≠ addr := ne_of_mem_of_not_mem ha haddrBelow
    rw [Function.update_of_ne hne, hcells a hne, if_neg fun hmem => hdisjoint a hmem a ha rfl,
      if_neg (ne_of_mem_of_not_mem ha hdead.2.2)]
  refine Grown.change [Tree.mk addr old type valueint valuedouble text children]
    [named (.mk addr old type valueint valuedouble text children) k name] h ?_ ?_ ?_ ?_ ?_
  · intro t ht
    rw [List.mem_singleton.mp ht, named, Holds]
    refine ⟨Function.update_self _ _ _, fun a v hs => ?_, htext.congr fun a ha => ?_,
      hchildren.congr children fun a ha => ?_⟩
    · obtain ⟨rfl, rfl⟩ : k = a ∧ name = v := by simpa using hs
      dsimp only
      rw [Function.update_of_ne hdead.1, hcells k hdead.1, if_neg hdead.2.1, if_pos rfl]
    · exact hkeep (List.mem_append_left _ ha)
    · exact hkeep (List.mem_append_right _ ha)
  · rw [hnewfoot, List.nodup_cons, List.nodup_cons, List.mem_cons, not_or]
    exact ⟨⟨Ne.symm hdead.1, haddrBelow⟩, hdead.2.2, hnodupBelow⟩
  · intro a ha
    rw [hnewfoot, List.mem_cons, List.mem_cons] at ha
    rw [holdfoot, List.mem_cons, List.mem_append]
    rcases ha with rfl | rfl | ha
    · exact .inl (.inl rfl)
    · exact .inr hk
    · exact .inl (.inr (.inr ha))
  · intro a ha hnot
    rw [holdfoot, List.mem_cons, List.mem_append] at ha
    rw [hnewfoot, List.mem_cons, List.mem_cons, not_or, not_or] at hnot
    have hmem : a ∈ stringAddr old := (ha.resolve_left hnot.1).resolve_right hnot.2.2
    dsimp only
    rw [Function.update_of_ne hnot.1, hcells a hnot.1, if_pos hmem]
  · intro a ha hnot
    rw [holdfoot, List.mem_cons, List.mem_append, not_or, not_or] at ha
    rw [hnewfoot, List.mem_cons, List.mem_cons, not_or, not_or] at hnot
    dsimp only
    rw [Function.update_of_ne hnot.1, hcells a hnot.1, if_neg ha.2.1, if_neg hnot.2.1]

theorem addr_named (u : Tree) (k : Nat) (name : List UInt8) : (u.named k name).addr = u.addr := by
  cases u
  rfl

theorem members_append {ts : List Tree} {child : List (List UInt8 × CJson)} {item : CJson}
    (hts : members ts = some child) (hu : value u = some item) :
    members (ts ++ [u]) = some (child ++ [(u.nameText, item)]) := by
  induction ts generalizing child with
  | nil =>
      cases hts
      simp [members, hu]
  | cons t ts ih =>
      obtain ⟨first, rest, hfirst, hrest, rfl⟩ := members_eq_cons hts
      rw [List.cons_append, members, hfirst, Option.bind_some, ih hrest]
      rfl

/-- The item that is added becomes the last member of the object. -/
theorem value_append {child : List (List UInt8 × CJson)} {item : CJson}
    (ht : value t = some (.object child)) (hu : value u = some item) (k : Nat)
    (name : List UInt8) :
    value (t.append (u.named k name)) = some (.object (child ++ [(name, item)])) := by
  obtain ⟨addr, old, type, valueint, valuedouble, text, children⟩ := t
  unfold Tree.value at ht
  cases type with
  | object =>
      obtain ⟨child', hchild, heq⟩ := Option.map_eq_some_iff.mp ht
      cases heq
      have hu' : value (u.named k name) = some item := by
        cases u
        exact hu
      have hname : (u.named k name).nameText = name := by
        cases u
        rfl
      rw [append, Tree.value, members_append hchild hu', hname]
      rfl
  | array =>
      obtain ⟨child', -, heq⟩ := Option.map_eq_some_iff.mp ht
      cases heq
  | _ => cases ht

/-- The value of an item, or, where the allocator refused a call, some other one. -/
def Says (malloc : Malloc) (item : CJson) (t : Tree) : Prop :=
  ∃ item', value t = some item' ∧ Ints item' ∧ (item' = item ∨ malloc.Refuses)

/-- An object with the members, or, where the allocator refused a call, with other ones. -/
def IsObject (malloc : Malloc) (child : List (List UInt8 × CJson)) (t : Tree) : Prop :=
  ∃ child', value t = some (.object child') ∧ IntsObject child' ∧
    (child' = child ∨ malloc.Refuses)

theorem IsObject.toSays {child : List (List UInt8 × CJson)} (h : IsObject malloc child t) :
    Says malloc (.object child) t := by
  obtain ⟨child', hvalue, hints, heq⟩ := h
  exact ⟨.object child', hvalue, hints, heq.imp_left (congrArg CJson.object)⟩

theorem intsObject_append {child : List (List UInt8 × CJson)} {item : CJson}
    (hchild : IntsObject child) (hitem : Ints item) (name : List UInt8) :
    IntsObject (child ++ [(name, item)]) := by
  induction child with
  | nil => exact ⟨hitem, trivial⟩
  | cons field child ih => exact ⟨hchild.1, ih hchild.2⟩

/-- An object and an item become one tree, or the allocator refuses the copy of the key. -/
theorem addItemToObject_grown (h : Grown base m (t :: u :: built)) (name : List UInt8) :
    ∃ added m', addItemToObject malloc (some t.addr) name (some u.addr) m = .ok (added, m') ∧
      (added = true ∧ (∃ k, Grown base m' (t.append (u.named k (cString name)) :: built)) ∨
        added = false ∧ malloc.Refuses ∧ Grown base m' (t :: u :: built)) := by
  have hnodup := h.nodup
  simp only [footList, List.nodup_append, List.mem_append] at hnodup
  have hne : t.addr ≠ u.addr :=
    hnodup.2.2 _ (addr_mem_foot t) _ (.inl (addr_mem_foot u))
  unfold addItemToObject cJsonStrdup
  dsimp only
  generalize cString name = name
  rw [if_neg hne]
  rcases h.allocate_cases malloc (.chars name) with ⟨hrefuses, hnone⟩ | ⟨k, hk, hsome⟩
  · rw [hnone]
    exact ⟨false, _, rfl, .inr ⟨rfl, hrefuses, h.calls _⟩⟩
  · obtain ⟨m₁, hrename, hgrown⟩ := (h.perm (.swap u t built)).rename hk name
    have hgrown := hgrown.perm (.swap t (u.named k name) built)
    have hnodup := hgrown.nodup
    rw [footList, footList, ← List.append_assoc] at hnodup
    obtain ⟨m₂, hadd, hholds, hsame⟩ := addItemToArray_spec
      (hgrown.holds t List.mem_cons_self)
      (hgrown.holds _ (List.mem_cons_of_mem t List.mem_cons_self)) (List.nodup_append.mp hnodup).1
    rw [addr_named] at hadd
    have hfoot {a : Nat} : a ∈ footList [t.append (u.named k name)] ↔
        a ∈ footList [t, u.named k name] := by
      simp only [footList, List.append_nil]
      exact (foot_append t (u.named k name)).mem_iff
    rw [hsome]
    dsimp only
    rw [← Outcome.bind_assoc, hrename, Outcome.ok_bind, hadd]
    refine ⟨true, m₂, rfl, .inl ⟨rfl, k, ?_⟩⟩
    refine Grown.change [t, u.named k name] [t.append (u.named k name)] hgrown ?_ ?_ ?_ ?_ ?_
    · intro v hv
      rw [List.mem_singleton.mp hv]
      exact hholds
    · rw [footList_singleton, (foot_append t _).nodup_iff]
      exact (List.nodup_append.mp hnodup).1
    · exact fun a ha => .inl (hfoot.mp ha)
    · exact fun a ha hnot => absurd (hfoot.mpr ha) hnot
    · intro a ha _
      simp only [footList, List.append_nil, List.mem_append, not_or] at ha
      exact hsame a ha.1 ha.2

/-- An item is added to an object, or it is left over, which the allocator is the reason for. -/
theorem addItemToObject_has {T U : Option Tree} {object new : Option Nat}
    {child : List (List UInt8 × CJson)} {item : CJson}
    (hT : Has malloc base (U.toList ++ built) (IsObject malloc child) T object m)
    (hnew : U.map addr = new) (hU : ∀ u ∈ U, Says malloc item u)
    (hrefused : U = none → malloc.Refuses) (name : List UInt8) :
    ∃ T' left added m', addItemToObject malloc object name new m = .ok (added, m') ∧
      Has malloc base (left ++ built) (IsObject malloc (child ++ [(cString name, item)])) T' object
        m' ∧
      (left = [] ∨ malloc.Refuses) ∧ left = if added then [] else U.toList := by
  obtain ⟨rfl, hgrown, hmeets, hT⟩ := hT
  subst hnew
  -- Where nothing is added, the allocator refused a call.
  have hstay {m' : Memory} (hrefuses : malloc.Refuses)
      (hgrown : Grown base m' (T.toList ++ (U.toList ++ built))) :
      Has malloc base (U.toList ++ built) (IsObject malloc (child ++ [(cString name, item)])) T
        (T.map addr) m' := by
    refine ⟨rfl, hgrown, fun t ht => ?_, fun _ => hrefuses⟩
    obtain ⟨child', hvalue, hints, -⟩ := hmeets t ht
    exact ⟨child', hvalue, hints, .inr hrefuses⟩
  cases T with
  | none =>
      have hrefuses := hT rfl
      refine ⟨none, U.toList, false, m, ?_, hstay hrefuses hgrown, .inr hrefuses, rfl⟩
      cases U <;> rfl
  | some t =>
      cases U with
      | none =>
          have hrefuses := hrefused rfl
          exact ⟨some t, [], false, m, rfl, hstay hrefuses hgrown, .inl rfl, rfl⟩
      | some u =>
          obtain ⟨added, m', hadd, hcase⟩ := addItemToObject_grown hgrown name
          rcases hcase with ⟨rfl, k, hgrown⟩ | ⟨rfl, hrefuses, hgrown⟩
          · refine ⟨some (t.append (u.named k (cString name))), [], true, m', hadd,
              ⟨?_, hgrown, ?_, nofun⟩, .inl rfl, rfl⟩
            · cases t
              rfl
            · intro v hv
              cases hv
              obtain ⟨child', hvalue, hints, heq⟩ := hmeets t rfl
              obtain ⟨item', hvalue', hints', heq'⟩ := hU u rfl
              refine ⟨_, value_append hvalue hvalue' k (cString name),
                intsObject_append hints hints' (cString name), ?_⟩
              rcases heq with rfl | hrefuses
              · exact heq'.imp_left fun heq' => by rw [heq']
              · exact .inr hrefuses
          · exact ⟨some t, [u], false, m', hadd, hstay hrefuses hgrown, .inr hrefuses, rfl⟩

/-- A new item without children is added, or nothing of it stays. -/
theorem addOrDelete_has {T U : Option Tree} {object new : Option Nat}
    {child : List (List UInt8 × CJson)} {item : CJson}
    (hT : Has malloc base (U.toList ++ built) (IsObject malloc child) T object m)
    (hnew : U.map addr = new) (hU : ∀ u ∈ U, Says malloc item u)
    (hrefused : U = none → malloc.Refuses) (hsize : ∀ u ∈ U, size u ≤ 1) (name : List UInt8) :
    ∃ T' out m', addOrDelete malloc object name new m = .ok (out, m') ∧
      Has malloc base built (IsObject malloc (child ++ [(cString name, item)])) T' object m' := by
  obtain ⟨T', left, added, m', hadd, hhas, -, hleft⟩ :=
    addItemToObject_has hT hnew hU hrefused name
  unfold addOrDelete
  rw [hadd, Outcome.ok_bind]
  cases added with
  | true =>
      subst hleft
      exact ⟨T', _, m', rfl, hhas⟩
  | false =>
      subst hleft hnew
      cases U with
      | none => exact ⟨T', none, m', rfl, hhas⟩
      | some u =>
          have hgrown : Grown base m' (u :: (T'.toList ++ built)) :=
            hhas.grown.perm List.perm_middle
          obtain ⟨m₂, hdelete, hgrown⟩ := hgrown.delete
          refine ⟨T', none, m₂, ?_, ⟨hhas.pointer, hgrown, hhas.meets, hhas.refused⟩⟩
          change (cJsonDelete 1 (some u.addr) m').bind _ = _
          rw [hdelete 1 (hsize u rfl), Outcome.ok_bind]

/-- Items are left over behind two calls only if they are behind one of them. -/
theorem append_left {left left' : List Tree} (hleft : left = [] ∨ malloc.Refuses)
    (hleft' : left' = [] ∨ malloc.Refuses) : left' ++ left = [] ∨ malloc.Refuses := by
  rcases hleft with rfl | hrefuses
  · exact hleft'.imp_left fun h => by rw [h, List.append_nil]
  · exact .inr hrefuses

/-- A tree stays what it is while others are built or left beside it. -/
theorem Has.among {P : Tree → Prop} {T : Option Tree} {item : Option Nat} {m' : Memory}
    {all built' : List Tree} (hT : Has malloc base built P T item m) (h : Grown base m' all)
    (hperm : all.Perm (T.toList ++ built')) : Has malloc base built' P T item m' :=
  ⟨hT.pointer, h.perm hperm, hT.meets, hT.refused⟩

theorem createAndAdd_has {T : Option Tree} {object : Option Nat}
    {child : List (List UInt8 × CJson)} {item : CJson} {P : Tree → Prop}
    {x : Outcome (Option Nat × Memory)}
    (hT : Has malloc base built (IsObject malloc child) T object m)
    (hx : Gives malloc base (T.toList ++ built) P x)
    (hP : ∀ u, P u → Says malloc item u ∧ size u ≤ 1) (name : List UInt8) :
    ∃ T' out m', (x.bind fun (item, m) => addOrDelete malloc object name item m) =
        .ok (out, m') ∧
      Has malloc base built (IsObject malloc (child ++ [(cString name, item)])) T' object m' := by
  obtain ⟨U, new, m₁, rfl, hU⟩ := hx
  exact addOrDelete_has (hT.among hU.grown (List.perm_append_comm_assoc _ _ _)) hU.pointer
    (fun u hu => (hP u (hU.meets u hu)).1) hU.refused (fun u hu => (hP u (hU.meets u hu)).2) name

theorem cJsonAddNumberToObject_has {T : Option Tree} {object : Option Nat}
    {child : List (List UInt8 × CJson)}
    (hT : Has malloc base built (IsObject malloc child) T object m) (name : List UInt8)
    (number : Double) :
    ∃ T' out m', cJsonAddNumberToObject malloc object name number m = .ok (out, m') ∧
      Has malloc base built (IsObject malloc (child ++ [(cString name, .ofDouble number)])) T'
        object m' := by
  refine createAndAdd_has hT (cJsonCreateNumber_gives hT.grown number) ?_ name
  rintro u ⟨a, rfl⟩
  exact ⟨⟨_, rfl, saturate_range number, .inl rfl⟩, le_rfl⟩

theorem cJsonAddStringToObject_has {T : Option Tree} {object : Option Nat}
    {child : List (List UInt8 × CJson)}
    (hT : Has malloc base built (IsObject malloc child) T object m) (name string : List UInt8) :
    ∃ T' out m', cJsonAddStringToObject malloc object name string m = .ok (out, m') ∧
      Has malloc base built (IsObject malloc (child ++ [(cString name, .string (cString string))]))
        T' object m' := by
  refine createAndAdd_has hT (cJsonCreateString_gives hT.grown string) ?_ name
  rintro u ⟨a, b, rfl⟩
  exact ⟨⟨_, rfl, trivial, .inl rfl⟩, le_rfl⟩

/-- The empty object. -/
theorem cJsonCreateObject_has (malloc : Malloc) (h : Grown base m built) : ∃ T item m',
    cJsonCreateObject malloc m = .ok (item, m') ∧
      Has malloc base built (IsObject malloc []) T item m' := by
  obtain ⟨T, item, m', hcreate, hT⟩ := cJsonCreateObject_gives h
  refine ⟨T, item, m', hcreate, hT.pointer, hT.grown, fun t ht => ?_, hT.refused⟩
  obtain ⟨a, rfl⟩ := hT.meets t ht
  exact ⟨[], rfl, trivial, .inl rfl⟩

/-- The empty array. -/
theorem cJsonCreateArray_has (malloc : Malloc) (h : Grown base m built) : ∃ T item m',
    cJsonCreateArray malloc m = .ok (item, m') ∧
      Has malloc base built (Says malloc (.array [])) T item m' := by
  obtain ⟨T, item, m', hcreate, hT⟩ := cJsonCreateArray_gives h
  refine ⟨T, item, m', hcreate, hT.pointer, hT.grown, fun t ht => ?_, hT.refused⟩
  obtain ⟨a, rfl⟩ := hT.meets t ht
  exact ⟨.array [], rfl, trivial, .inl rfl⟩

end Adding

/-- The end of the functions that make a text: the root is printed and deleted. The text, the
blocks of the printer that are left, and the heap. -/
def printAndDelete (memory : Allocator) (fuel : Nat) (root : Option Nat) (format : Bool)
    (m : Memory) : Outcome (Option (List UInt8) × Nat × Memory) :=
  (Printbuffer.printHeap memory m fuel root format).bind fun (text, blocks) =>
  (cJsonDelete fuel root m).bind fun m => .ok (text, blocks, m)

section Ending

open Printbuffer

variable {base : Nat → Option Cell} {m : Memory} {built : List Tree} {malloc : Malloc}
  {memory : Allocator} {child : List (List UInt8 × CJson)}

theorem printHeap_null (memory : Allocator) (m : Memory) (fuel : Nat) (format : Bool) :
    printHeap memory m fuel none format = .ok (none, 0) := by
  unfold printHeap
  cases malloc memory 0 256 with
  | none => rfl
  | some buffer => cases fuel <;> rfl

/-- The root is printed as it is, and nothing of it stays. -/
theorem printAndDelete_has {T : Option Tree} {root : Option Nat}
    (h : Has malloc base built (IsObject malloc child) T root m)
    (memory : Allocator) (format : Bool) : ∃ n text blocks m',
      (∀ fuel, n ≤ fuel →
        printAndDelete memory fuel root format m = .ok (text, blocks, m')) ∧
      Grown base m' built ∧
      (text = none ∧ blocks = 0 ∧ (malloc.Refuses ∨ Refuses memory ∨
          maxSize < (textOf format 0 (.object child)).length + 2) ∨
        ∃ child', text = some (textOf format 0 (.object child') ++ [0]) ∧ blocks = 1 ∧
          (child' = child ∨ malloc.Refuses)) := by
  obtain ⟨rfl, hgrown, hmeets, hrefused⟩ := h
  cases T with
  | none =>
      refine ⟨0, none, 0, m, fun fuel _ => ?_, hgrown, .inl ⟨rfl, rfl, .inl (hrefused rfl)⟩⟩
      rw [Option.map_none, printAndDelete, printHeap_null, Outcome.ok_bind]
      cases fuel <;> rfl
  | some t =>
      obtain ⟨child', hvalue, hints, heq⟩ := hmeets t rfl
      have hholds := hgrown.holds t List.mem_cons_self
      have hprint := print_spec memory (.object child') format hints
      obtain ⟨m', hdelete, hgrown⟩ := hgrown.delete
      have hend {text : Option (List UInt8)} {blocks : Nat}
          (hp : Printbuffer.print memory (.object child') format = .ok (text, blocks)) (fuel : Nat)
          (hfuel : 2 * size t ≤ fuel) :
          printAndDelete memory fuel ((some t).map addr) format m = .ok (text, blocks, m') := by
        rw [Option.map_some, printAndDelete, printHeap_eq hfuel hholds hvalue, hp, Outcome.ok_bind]
        dsimp only
        rw [hdelete fuel (by omega), Outcome.ok_bind]
      rcases hprint with hp | ⟨hp, hreason⟩
      · exact ⟨_, _, _, m', hend hp, hgrown, .inr ⟨child', rfl, rfl, heq⟩⟩
      · refine ⟨_, _, _, m', hend hp, hgrown, .inl ⟨rfl, rfl, ?_⟩⟩
        rcases heq with rfl | hrefuses
        · exact .inr hreason
        · exact .inl hrefuses

end Ending

end CJson
