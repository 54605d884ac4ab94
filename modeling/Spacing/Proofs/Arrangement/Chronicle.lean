import Spacing.Proofs.Arrangement.Initial
import Spacing.Proofs.Arrangement.Still
/-!
Chronicles: the events of a journal tell of every merge and every split, and nothing else changes the
blocks, so the blocks can be read off the events.
-/

namespace Spacing

open Relation

variable {α : Type}

namespace Event

def subject? : Event α → Option ConId
  | .merged c .. => some c
  | .split c .. => some c
  | _ => none

def parts? : Event α → Option (BlockId × BlockId)
  | .split _ _ left right => some (left, right)
  | _ => none

def latest (c : ConId) (es : List (Event α)) : Option (Event α) :=
  (es.filter fun e => e.subject? = some c).getLast?

variable {e : Event α}

theorem isMerge_of_subject? (h : e.subject? = none) : e.isMerge = false := by
  cases e <;> simp [subject?, isMerge] at h ⊢

theorem isSplit_of_subject? (h : e.subject? = none) : e.isSplit = false := by
  cases e <;> simp [subject?, isSplit] at h ⊢

theorem parts?_of_subject? (h : e.subject? = none) : e.parts? = none := by
  cases e <;> simp [subject?, parts?] at h ⊢

theorem latest_concat (c : ConId) (es : List (Event α)) (e : Event α) :
    latest c (es ++ [e]) = if e.subject? = some c then some e else latest c es := by
  by_cases h : e.subject? = some c <;> simp [latest, List.filter_append, h]

end Event

structure Picture where
  active : Set ConId
  blocks : Set BlockId
  members : BlockId → Set VarId

namespace Picture

def holding (g : Edges) (x : Picture) (c : ConId) : Set BlockId :=
  { b | g.left c ∈ x.members b ∧ g.right c ∈ x.members b }

def start (n : Nat) : Picture where
  active := ∅
  blocks := { b | b < n }
  members b := {b}

/-- A merge takes the absorbed block away. A split takes the block away that holds the constraint, and
adds two new ones: of the variables that are still linked to its left end, and to its right end. -/
def next (g : Edges) (x : Picture) : Event α → Picture
  | .merged c survivor absorbed =>
    { active := insert c x.active
      blocks := x.blocks \ {absorbed}
      members := Function.update x.members survivor (x.members survivor ∪ x.members absorbed) }
  | .split c _ left right =>
    let rest := x.active \ {c}
    { active := rest
      blocks := (x.blocks \ x.holding g c) ∪ {left, right}
      members := Function.update (Function.update x.members left { v | g.Linked rest (g.left c) v })
        right { v | g.Linked rest (g.right c) v } }
  | _ => x

def ofEvents (g : Edges) (n : Nat) (es : List (Event α)) : Picture :=
  es.foldl (next g) (start n)

theorem next_of_subject? {e : Event α} (h : e.subject? = none) (g : Edges) (x : Picture) :
    x.next g e = x := by
  cases e <;> simp [Event.subject?] at h <;> rfl

theorem ofEvents_concat (g : Edges) (n : Nat) (es : List (Event α)) (e : Event α) :
    ofEvents g n (es ++ [e]) = (ofEvents g n es).next g e := by
  simp [ofEvents]

structure Shows (x : Picture) (a : Arrangement α) [Scalar α] : Prop where
  active_eq : x.active = a.problem.active
  mem_blocks : ∀ b, b ∈ x.blocks ↔ (a.block? b).isSome
  mem_members : ∀ b B, a.block? b = some B → ∀ v, v ∈ x.members b ↔ v ∈ B.members

end Picture

namespace Arrangement

def events (a : Arrangement α) : List (Event α) :=
  eventsOf a.journal.toList

theorem events_push {a a' : Arrangement α} {x : Entry α} (h : a'.journal = a.journal.push x) :
    a'.events = a.events ++ eventsOf [x] := by
  rw [events, h, Array.toList_push, eventsOf, List.filterMap_append]
  rfl

variable [Scalar α] {a a' a₁ : Arrangement α} {b l r t : BlockId} {c : ConId} {s B : Block α}
  {L R : List VarId} {shift : α} {x : Picture}

theorem events_merge_of_ends {near far : BlockId} (h : a.merge c = .ok (a', t))
    (hends : near = a.leftBlock c ∧ far = a.rightBlock c ∨
      near = a.rightBlock c ∧ far = a.leftBlock c) :
    a'.events = a.events ++ [.merged c t (if t = near then far else near)] := by
  obtain ⟨r, _, _, _, hm⟩ := merged_of_merge h
  have hne := hm.ne
  have hother : r = if t = near then far else near := by
    rcases hm.ends with ⟨rfl, rfl, -⟩ | ⟨rfl, rfl, -⟩ <;> rcases hends with ⟨rfl, rfl⟩ | ⟨rfl, rfl⟩
    · rw [if_pos rfl]
    · rw [if_neg hne]
    · rw [if_neg hne]
    · rw [if_pos rfl]
  rw [← hother]
  exact events_push hm.journal_eq

/-! Steps. -/

structure Alike (a a' : Arrangement α) : Prop where
  edges_eq : a'.problem.edges = a.problem.edges
  active_eq : a'.problem.active = a.problem.active
  members_eq : ∀ b, (a'.block? b).map Block.members = (a.block? b).map Block.members
  size_eq : a'.blocks.size = a.blocks.size
  standing_eq : a'.standing = a.standing

theorem alike_modifyBlock {f : Block α → Block α} (hf : ∀ B, (f B).members = B.members) :
    Alike a (a.modifyBlock b f) where
  edges_eq := rfl
  active_eq := rfl
  members_eq i := by
    rw [block?_modifyBlock]
    split
    · rw [Option.map_map]
      congr 1
      funext B
      exact hf B
    · rfl
  size_eq := by simp [modifyBlock]
  standing_eq := standing_modifyBlock a b f

theorem alike_of_problem {q : Problem α} (he : q.edges = a.problem.edges)
    (ha : q.active = a.problem.active) : Alike a { a with problem := q } :=
  ⟨he, ha, fun _ => rfl, rfl, rfl⟩

/-- What a step can do to the blocks, and what it tells of it. -/
inductive Recorded (a a' : Arrangement α) : Prop
  | silent (h : Alike a a') (hevents : a'.events = a.events)
  | remark {e : Event α} (h : Alike a a') (hevents : a'.events = a.events ++ [e])
    (he : e.subject? = none)
  | merged {c : ConId} {t r : BlockId} {s b : Block α} {shift : α}
    (h : Merged a a' c t r s b shift) (hstanding : a'.standing + 1 = a.standing)
    (hevents : a'.events = a.events ++ [.merged c t r])
  | split {a₁ : Arrangement α} {c : ConId} {m : α} {l r : BlockId} {B : Block α}
    {L R : List VarId} (h₁ : Alike a a₁) (hevents₁ : a₁.events = a.events) (ha₁ : a₁.Intact)
    (hc : c ∈ a₁.problem.active) (h : Halved a₁ a' c l r B L R)
    (hstanding : a'.standing = a₁.standing + 1)
    (hevents : a'.events = a₁.events ++ [.split c m l r])

theorem recorded_of_split (h₁ : Alike a a₁) (hevents₁ : a₁.events = a.events) (ha₁ : a₁.Intact)
    (hc : c ∈ a₁.problem.active) (h : a₁.split c = .ok (a', l, r)) : Recorded a a' := by
  obtain ⟨B, L, R, hh⟩ := halved_of_split ha₁ hc h
  exact .split h₁ hevents₁ ha₁ hc hh (standing_split h) (events_push hh.journal_eq)

theorem Step.recorded (ha : a.Intact) (h : Step a a') : Recorded a a' := by
  cases h with
  | merge h =>
    obtain ⟨_, _, _, _, hm⟩ := merged_of_merge h
    exact .merged hm (standing_merge h) (events_push hm.journal_eq)
  | split hc h => exact recorded_of_split ⟨rfl, rfl, fun _ => rfl, rfl, rfl⟩ rfl ha hc h
  | settle b => exact .silent (alike_modifyBlock fun _ => rfl) rfl
  | collectBoundary side b => exact .silent (alike_modifyBlock fun _ => by cases side <;> rfl) rfl
  | writeMultipliers b =>
    have hedges := Problem.edges_eq (given_writeMultipliers (a := a) (a.multipliersOf b))
    exact .silent (alike_of_problem hedges (active_writeMultipliers _)) rfl
  | writePositions =>
    exact .silent (alike_of_problem (Problem.edges_eq given_writePositions) rfl) rfl
  | cleanUp => exact .silent ⟨rfl, rfl, fun _ => rfl, rfl, rfl⟩ rfl
  | log x hx =>
    let t : Arrangement α := { a with journal := a.journal.push x }
    have hsame : Alike a t := ⟨rfl, rfl, fun _ => rfl, rfl, rfl⟩
    have hevents : t.events = a.events ++ eventsOf [x] := events_push rfl
    cases x with
    | note n => exact .silent hsame (hevents.trans (List.append_nil _))
    | event e =>
      refine .remark hsame hevents ?_
      have hquiet := hx e rfl
      cases e <;> simp [Event.isMerge, Event.isSplit, Event.subject?] at hquiet ⊢
  | setDesired hv desired => exact .silent (alike_of_problem rfl rfl) rfl
  | setGap hlt hc gap =>
    exact .silent (alike_of_problem (edges_setGap hlt gap) (active_setGap gap)) rfl
  | @release _ c _ _ hc gap h =>
    have hlt := Problem.lt_size_of_mem_active hc
    have hactive : (a.problem.setGap c gap).active = a.problem.active := active_setGap gap
    exact recorded_of_split (alike_of_problem (edges_setGap hlt gap) hactive) rfl (ha.setGap hlt gap)
      (hactive ▸ hc) h

/-! Pictures. -/

theorem Alike.shows (h : Alike a a') (hx : x.Shows a) : x.Shows a' where
  active_eq := hx.active_eq.trans h.active_eq.symm
  mem_blocks b := by
    have hsome := congrArg Option.isSome (h.members_eq b)
    rw [Option.isSome_map, Option.isSome_map] at hsome
    rw [hx.mem_blocks, hsome]
  mem_members b B' hB' v := by
    have hmembers := h.members_eq b
    rw [hB', Option.map_some] at hmembers
    obtain ⟨B, hB, he⟩ := Option.map_eq_some_iff.mp hmembers.symm
    rw [hx.mem_members b B hB, he]

theorem Merged.shows (h : Merged a a' c t r s B shift) (hx : x.Shows a) :
    (x.next a.problem.edges (.merged c t r : Event α)).Shows a' where
  active_eq := by
    rw [h.active_eq, ← hx.active_eq]
    rfl
  mem_blocks i := by
    have hmem : i ∈ (x.next a.problem.edges (.merged c t r : Event α)).blocks ↔
        (a.block? i).isSome ∧ i ≠ r := by
      rw [← hx.mem_blocks]
      rfl
    rw [hmem, h.block?_eq]
    by_cases hit : i = t
    · simp [hit, h.survivor, h.ne]
    · by_cases hir : i = r <;> simp [hit, hir, h.ne.symm]
  mem_members i B' hB' v := by
    rcases h.block?_cases hB' with ⟨rfl, rfl⟩ | ⟨hit, -, hB⟩
    · rw [mem_join, ← hx.mem_members i s h.survivor, ← hx.mem_members r B h.absorbed]
      simp [Picture.next]
    · rw [← hx.mem_members i B' hB]
      simp [Picture.next, hit]

theorem Halved.shows (h : Halved a a' c l r B L R) (ha : a.Intact) (hc : c ∈ a.problem.active)
    {m : α} (hx : x.Shows a) : (x.next a.problem.edges (.split c m l r)).Shows a' where
  active_eq := by
    rw [h.active_eq, ← hx.active_eq]
    rfl
  mem_blocks i := by
    -- No block in use holds `c` but the one that is split.
    have hholding : ∀ B', a.block? i = some B' →
        (i ∈ x.holding a.problem.edges c ↔ i = a.leftBlock c) := by
      intro B' hB'
      have hmem (v : VarId) (hv : v < a.problem.vars.size) : v ∈ x.members i ↔ a.blockOf v = i := by
        rw [hx.mem_members i B' hB', ha.mem_iff i B' hB', and_iff_right hv]
      rw [Picture.holding, Set.mem_ofPred_eq, hmem _ (ha.left_lt hc), hmem _ (ha.right_lt hc),
        ← ha.together c hc, and_self]
      exact eq_comm
    have hmem : i ∈ (x.next a.problem.edges (.split c m l r)).blocks ↔
        ((a.block? i).isSome ∧ i ∉ x.holding a.problem.edges c) ∨ i = l ∨ i = r := by
      rw [← hx.mem_blocks]
      rfl
    rw [hmem, h.block?_eq]
    by_cases hil : i = l
    · simp [hil]
    · by_cases hir : i = r
      · simp [hir, h.left_ne_right.symm]
      · simp only [hil, hir, if_false, or_false]
        cases hB' : a.block? i with
        | none => simp
        | some B' =>
          rw [hholding B' hB']
          by_cases ho : i = a.leftBlock c <;> simp [ho]
  mem_members i B' hB' v := by
    rcases h.block?_cases hB' with ⟨rfl, rfl⟩ | ⟨rfl, rfl⟩ | ⟨-, hB⟩
    · have hv := h.mem_left v
      rw [← hx.active_eq] at hv
      simpa [Picture.next, h.left_ne_right, Block.place] using hv.symm
    · have hv := h.mem_right v
      rw [← hx.active_eq] at hv
      simpa [Picture.next, Block.place] using hv.symm
    · have hlt := block?_eq_some_lt hB
      have hl : i ≠ l := h.left_eq ▸ Nat.ne_of_lt hlt
      have hr : i ≠ r := h.right_eq ▸ Nat.ne_of_lt (Nat.lt_succ_of_lt hlt)
      rw [← hx.mem_members i B' hB]
      simp [Picture.next, hl, hr]

/-! Chronicles. -/

structure Chronicled (g : Edges) (n : Nat) (a : Arrangement α) : Prop where
  edges_eq : a.problem.edges = g
  picture : (Picture.ofEvents g n a.events).Shows a
  active_iff : ∀ c, c ∈ a.problem.active ↔
    ∃ e, Event.latest c a.events = some e ∧ e.isMerge = true
  size_eq : a.blocks.size = n + 2 * a.events.countP Event.isSplit
  parts_eq : a.events.filterMap Event.parts? =
    (List.range (a.events.countP Event.isSplit)).map fun k => (n + 2 * k, n + 2 * k + 1)
  count_eq : a.standing + a.events.countP Event.isMerge = n + a.events.countP Event.isSplit

variable {g : Edges} {n : Nat}

theorem Chronicled.alike (h : Chronicled g n a) (hs : Alike a a') (hevents : a'.events = a.events) :
    Chronicled g n a' where
  edges_eq := hs.edges_eq.trans h.edges_eq
  picture := hevents ▸ hs.shows h.picture
  active_iff c := by rw [hs.active_eq, hevents, h.active_iff]
  size_eq := by rw [hs.size_eq, hevents, h.size_eq]
  parts_eq := by rw [hevents, h.parts_eq]
  count_eq := by rw [hs.standing_eq, hevents, h.count_eq]

theorem Chronicled.remark (h : Chronicled g n a) (hs : Alike a a') {e : Event α}
    (hevents : a'.events = a.events ++ [e]) (he : e.subject? = none) : Chronicled g n a' where
  edges_eq := hs.edges_eq.trans h.edges_eq
  picture := by
    rw [hevents, Picture.ofEvents_concat, Picture.next_of_subject? he]
    exact hs.shows h.picture
  active_iff c := by
    rw [hs.active_eq, hevents, Event.latest_concat, he, h.active_iff]
    simp
  size_eq := by simp [hs.size_eq, hevents, h.size_eq, Event.isSplit_of_subject? he]
  parts_eq := by
    simp [hevents, h.parts_eq, Event.parts?_of_subject? he, Event.isSplit_of_subject? he]
  count_eq := by
    simpa [hs.standing_eq, hevents, Event.isMerge_of_subject? he, Event.isSplit_of_subject? he]
      using h.count_eq

theorem Chronicled.merged (h : Chronicled g n a) (hm : Merged a a' c t r s B shift)
    (hstanding : a'.standing + 1 = a.standing)
    (hevents : a'.events = a.events ++ [.merged c t r]) : Chronicled g n a' where
  edges_eq := hm.edges_eq.trans h.edges_eq
  picture := by
    rw [hevents, Picture.ofEvents_concat, ← h.edges_eq]
    exact hm.shows (h.edges_eq ▸ h.picture)
  active_iff d := by
    rw [hm.active_eq, Set.mem_insert_iff, hevents, Event.latest_concat, h.active_iff]
    by_cases hd : c = d
    · simp [hd, Event.subject?, Event.isMerge]
    · simp [hd, Ne.symm hd, Event.subject?]
  size_eq := by simp [hm.size_blocks, hevents, h.size_eq, Event.isSplit]
  parts_eq := by simp [hevents, h.parts_eq, Event.isSplit, Event.parts?]
  count_eq := by
    have hcount := h.count_eq
    simp [hevents, Event.isMerge, Event.isSplit]
    omega

theorem Chronicled.split (h : Chronicled g n a) (ha : a.Intact) (hc : c ∈ a.problem.active)
    (hh : Halved a a' c l r B L R) (hstanding : a'.standing = a.standing + 1) {m : α}
    (hevents : a'.events = a.events ++ [.split c m l r]) : Chronicled g n a' where
  edges_eq := hh.edges_eq.trans h.edges_eq
  picture := by
    rw [hevents, Picture.ofEvents_concat, ← h.edges_eq]
    exact hh.shows ha hc (h.edges_eq ▸ h.picture)
  active_iff d := by
    rw [hh.active_eq, Set.mem_sdiff, Set.mem_singleton_iff, hevents, Event.latest_concat,
      h.active_iff]
    by_cases hd : c = d
    · simp [hd, Event.subject?, Event.isMerge]
    · simp [hd, Ne.symm hd, Event.subject?]
  size_eq := by
    have hsize := h.size_eq
    simp [hh.size_blocks, hevents, Event.isSplit]
    omega
  parts_eq := by
    simp [hevents, h.parts_eq, Event.isSplit, Event.parts?, List.range_succ, hh.left_eq,
      hh.right_eq, h.size_eq]
  count_eq := by
    have hcount := h.count_eq
    simp [hevents, Event.isMerge, Event.isSplit]
    omega

theorem Chronicled.step (h : Chronicled g n a) (ha : a.Intact) (hs : Step a a') :
    Chronicled g n a' := by
  cases hs.recorded ha with
  | silent hsame hevents => exact h.alike hsame hevents
  | remark hsame hevents he => exact h.remark hsame hevents he
  | merged hm hstanding hevents => exact h.merged hm hstanding hevents
  | split hsame hevents₁ ha₁ hc hh hstanding hevents =>
    exact (h.alike hsame hevents₁).split ha₁ hc hh hstanding hevents

theorem Chronicled.steps (h : Chronicled g n a) (ha : a.Intact) (hs : Steps a a') :
    Chronicled g n a' := by
  induction hs with
  | refl => exact h
  | tail hs hstep ih => exact ih.step (ha.steps hs) hstep

theorem events_ofProblem (p : Problem α) : (ofProblem p).events = [] := rfl

theorem size_ofProblem (p : Problem α) : (ofProblem p).blocks.size = p.vars.size := by
  simp [ofProblem]

theorem standing_ofProblem (p : Problem α) : (ofProblem p).standing = p.vars.size := by
  rw [standing_eq, size_ofProblem]
  have hall : ∀ b ∈ List.range p.vars.size, ((ofProblem p).block? b).isSome := by
    intro b hb
    rw [block?_ofProblem, if_pos (List.mem_range.mp hb)]
    rfl
  rw [List.filter_eq_self.mpr hall, List.length_range]

theorem chronicled_ofProblem (p : Problem α) :
    Chronicled p.edges p.vars.size (ofProblem p) where
  edges_eq := Problem.edges_eq given_ofProblem
  picture := by
    rw [events_ofProblem]
    constructor
    · exact active_ofProblem.symm
    · intro b
      rw [block?_ofProblem]
      by_cases hb : b < p.vars.size <;> simp [Picture.ofEvents, Picture.start, hb]
    · intro b B hB v
      obtain ⟨-, rfl⟩ := block?_ofProblem_some hB
      exact List.mem_singleton.symm
  active_iff c := by simp [active_ofProblem, events_ofProblem, Event.latest]
  size_eq := by simp [size_ofProblem, events_ofProblem]
  parts_eq := by simp [events_ofProblem]
  count_eq := by simp [standing_ofProblem, events_ofProblem]

/-! What an event says is so when it is told. -/

def Holds (a : Arrangement α) (b : BlockId) (v : VarId) : Prop :=
  ∃ B, a.block? b = some B ∧ v ∈ B.members

def Confirms (a : Arrangement α) : Event α → Prop
  | .merged c survivor absorbed => a.Holds survivor (a.problem.edges.left c) ∧
    a.Holds survivor (a.problem.edges.right c) ∧ a.block? absorbed = none
  | .split c _ left right => a.Holds left (a.problem.edges.left c) ∧
    a.Holds right (a.problem.edges.right c)
  | _ => True

theorem confirms_of_subject? {e : Event α} (he : e.subject? = none) : a.Confirms e := by
  cases e <;> simp [Event.subject?] at he <;> exact trivial

theorem Merged.confirms (h : Merged a a' c t r s B shift) (ha : a.Intact) :
    a'.Confirms (.merged c t r) := by
  have hmem (v : VarId) (hv : v < a.problem.vars.size) (hvb : a'.blockOf v = t) : a'.Holds t v := by
    refine ⟨_, h.block?_survivor, ?_⟩
    apply (h.intact ha).mem_of_blockOf h.block?_survivor _ hvb
    rwa [Problem.size_vars_eq h.given_eq]
  have hl := ha.consistent.left_lt c h.lt_size
  have hr := ha.consistent.right_lt c h.lt_size
  rw [Confirms, h.edges_eq]
  refine ⟨hmem _ hl ?_, hmem _ hr ?_, ?_⟩
  · exact (h.blockOf_eq_iff_ends ha hl).mpr (.inl rfl)
  · exact (h.blockOf_eq_iff_ends ha hr).mpr (.inr rfl)
  · simp [h.block?_eq, h.ne.symm]

theorem Halved.confirms (h : Halved a a' c l r B L R) (m : α) : a'.Confirms (.split c m l r) := by
  rw [Confirms, h.edges_eq]
  exact ⟨⟨_, h.block?_left, h.ends_mem.1⟩, ⟨_, h.block?_right, h.ends_mem.2⟩⟩

theorem Recorded.confirms (h : Recorded a a') (ha : a.Intact) :
    a'.events = a.events ∨ ∃ e, a'.events = a.events ++ [e] ∧ a'.Confirms e := by
  cases h with
  | silent _ hevents => exact .inl hevents
  | remark _ hevents he => exact .inr ⟨_, hevents, confirms_of_subject? he⟩
  | merged h _ hevents => exact .inr ⟨_, hevents, h.confirms ha⟩
  | split _ hevents₁ _ _ h _ hevents => exact .inr ⟨_, hevents₁ ▸ hevents, h.confirms _⟩

theorem Steps.told (hs : Steps a a') (ha : a.Intact) (h : a.events = []) {es rest : List (Event α)}
    {e : Event α} (he : a'.events = es ++ e :: rest) : ∃ a₀, Steps a a₀ ∧ Steps a₀ a' ∧
      a₀.events = es ++ [e] ∧ a₀.Confirms e := by
  induction hs generalizing rest with
  | refl => simp [h] at he
  | @tail a₁ a₂ hs hstep ih =>
    rcases (hstep.recorded (ha.steps hs)).confirms (ha.steps hs) with hevents | ⟨e', hevents, hsays⟩
    · obtain ⟨a₀, h₁, h₂, h₃⟩ := ih (hevents ▸ he)
      exact ⟨a₀, h₁, h₂.tail hstep, h₃⟩
    · rcases List.eq_nil_or_concat rest with rfl | ⟨rest', x, rfl⟩
      · obtain ⟨-, hlast⟩ := List.append_inj' (hevents.symm.trans he) rfl
        cases hlast
        exact ⟨a₂, hs.tail hstep, .refl, he, hsays⟩
      · rw [hevents, List.concat_eq_append, ← List.cons_append, ← List.append_assoc] at he
        obtain ⟨a₀, h₁, h₂, h₃⟩ := ih (List.append_inj' he rfl).1
        exact ⟨a₀, h₁, h₂.tail hstep, h₃⟩

end Arrangement

end Spacing
