import JsonQuery.Proofs.Selection.Evaluation

/-!
The trail while an evaluation goes on. Whatever is visited comes after its container, so the numbers
fall on the way from any visited value to the root, and climbing from link to link ends there. A
trail only grows, so that what a number stands for at one moment it stands for ever after. The inner
path of a dynamic step is evaluated on a trail of its own.
-/

namespace JsonQuery

namespace Trail

/-- Every visited value has a greater number than its container. -/
def Falls (trail : Trail) : Prop :=
  ∀ number link, trail.link? number = some link → link.container < number

/-- Climbing from link to link, from a number up to where there is no link, goes through a location
from its end. -/
inductive Climbs (trail : Trail) : Nat → Location → Prop where
  | stop {number : Nat} (h : trail.link? number = none) : Climbs trail number []
  | up {number : Nat} {link : Link} {location : Location} (h : trail.link? number = some link)
      (hup : Climbs trail link.container location) :
      Climbs trail number (location ++ [link.element])

section Falls

variable {trail later : Trail}

theorem falls_empty : empty.Falls := by
  intro number link h
  cases number <;> cases h

theorem lt_next_of_link? {number : Nat} {link : Link} (h : trail.link? number = some link) :
    number < trail.next := by
  cases number with
  | zero => cases h
  | succ i =>
    obtain ⟨hi, -⟩ := Array.getElem?_eq_some_iff.mp h
    exact Nat.succ_lt_succ hi

theorem exists_link? {number : Nat} (hpos : 0 < number) (h : number < trail.next) :
    ∃ link, trail.link? number = some link := by
  cases number with
  | zero => cases hpos
  | succ i => exact ⟨_, Array.getElem?_eq_getElem (Nat.lt_of_succ_lt_succ h)⟩

theorem Within.falls (h : trail.Within later) (hlater : later.Falls) : trail.Falls := by
  intro number link hlink
  apply hlater
  rw [h.link?_eq (lt_next_of_link? hlink), hlink]

theorem Falls.push (h : trail.Falls) {container : Nat} (hc : container < trail.next)
    (element : Element) : (trail.push container element).Falls := by
  intro number link hlink
  have hnext : (trail.push container element).next = trail.next + 1 := by
    rw [next, next, Trail.push, Array.size_push]
  have hnumber := lt_next_of_link? hlink
  rw [hnext, Nat.lt_succ_iff_lt_or_eq] at hnumber
  rcases hnumber with hold | rfl
  · rw [(trail.within_push container element).link?_eq hold] at hlink
    exact h number link hlink
  · rw [link?_push] at hlink
    cases hlink
    exact hc

theorem Falls.climbs_locate (h : trail.Falls) (number : Nat) :
    trail.Climbs number (trail.locate number) := by
  induction number using Nat.strongRecOn with
  | ind number ih =>
    rw [locate, wayTo]
    cases hlink : trail.link? number with
    | none => exact .stop hlink
    | some link =>
      have hlt := h number link hlink
      simp only [hlt, if_true]
      rw [wayTo_eq]
      exact .up hlink (ih link.container hlt)

theorem Climbs.unique {number : Nat} {location other : Location} (h : trail.Climbs number location)
    (h' : trail.Climbs number other) : location = other := by
  induction h generalizing other with
  | stop hnone =>
    cases h' with
    | stop => rfl
    | up hlink => cases hnone.symm.trans hlink
  | up hlink _ ih =>
    cases h' with
    | stop hnone => cases hlink.symm.trans hnone
    | up hlink' hup =>
      cases hlink.symm.trans hlink'
      rw [ih hup]

theorem Falls.climbs_iff (h : trail.Falls) {number : Nat} {location : Location} :
    trail.Climbs number location ↔ location = trail.locate number := by
  constructor
  · intro hclimbs
    exact hclimbs.unique (h.climbs_locate number)
  · rintro rfl
    exact h.climbs_locate number

/-- Of two fronts of a trail the longer one goes on where the shorter one ends. -/
theorem Within.within_of_next_le {whole : Trail} (h : trail.Within whole)
    (h' : later.Within whole) (hle : trail.next ≤ later.next) : trail.Within later := by
  apply List.prefix_of_prefix_length_le h h'
  simpa [next] using hle

end Falls

end Trail

namespace Findings

theorem within_visitAll (findings : Findings) (container : Match)
    (children : List (Element × Value)) :
    findings.trail.Within (findings.visitAll container children).trail := by
  induction children generalizing findings with
  | nil => exact .refl _
  | cons c children ih =>
    have hvisit := findings.trail.within_push container.number c.1
    exact hvisit.trans (ih (findings.visit container.number c))

theorem falls_visitAll {trail : Trail} {hits : List Match} (h : trail.Falls) {container : Match}
    (hc : container.number < trail.next) (children : List (Element × Value)) :
    (visitAll ⟨trail, hits⟩ container children).trail.Falls := by
  induction children generalizing trail hits with
  | nil => exact h
  | cons c children ih =>
    have hvisit := trail.within_push container.number c.1
    exact ih (h.push hc c.1) (Nat.lt_of_lt_of_le hc hvisit.next_le)

/-- A turn of a loop through matches: it continues the trail, and where the trail falls and has
recorded the match it still falls after the turn. -/
structure Climbable (turn : Findings → Match → Findings) : Prop where
  within : ∀ (findings : Findings) (m : Match), findings.trail.Within (turn findings m).trail
  falls : ∀ {findings : Findings} {m : Match}, findings.trail.Falls →
    m.number < findings.trail.next → (turn findings m).trail.Falls

theorem climbable_visitAll (pick : Value → List (Element × Value)) :
    Climbable fun findings m => findings.visitAll m (pick m.value) where
  within findings m := findings.within_visitAll m (pick m.value)
  falls h hm := falls_visitAll h hm _

theorem climbable_visitWhere (test : Value → Bool) : Climbable (visitWhere test) where
  within findings m := within_visitAll ⟨findings.trail, []⟩ m m.value.children
  falls h hm := falls_visitAll h hm _

section Loop

variable {turn : Findings → Match → Findings} (hturn : Climbable turn)
include hturn

theorem Climbable.within_foldl (findings : Findings) (found : List Match) :
    findings.trail.Within (found.foldl turn findings).trail := by
  induction found generalizing findings with
  | nil => exact .refl _
  | cons m found ih => exact (hturn.within findings m).trans (ih (turn findings m))

theorem Climbable.falls_foldl {trail : Trail} {hits : List Match} (h : trail.Falls)
    {found : List Match} (hrecorded : ∀ m ∈ found, m.number < trail.next) :
    (found.foldl turn ⟨trail, hits⟩).trail.Falls := by
  induction found generalizing trail hits with
  | nil => exact h
  | cons m found ih =>
    apply ih (hturn.falls h (hrecorded m List.mem_cons_self))
    intro m' hm'
    have hlt := hrecorded m' (List.mem_cons_of_mem m hm')
    exact Nat.lt_of_lt_of_le hlt (hturn.within ⟨trail, hits⟩ m).next_le

end Loop

end Findings

theorem within_descend (trail : Trail) (hits pending : List Match) :
    trail.Within (descend ⟨trail, hits⟩ pending).trail := by
  generalize hfindings : Findings.mk trail hits = findings
  fun_induction descend findings pending generalizing trail hits with
  | case1 findings =>
    cases hfindings
    exact .refl _
  | case2 trail hits m pending below ih =>
    cases hfindings
    have hbelow := Findings.within_visitAll ⟨trail, []⟩ m m.value.children.reverse
    exact hbelow.trans (ih _ _ rfl)

theorem falls_descend {findings : Findings} (h : findings.trail.Falls) {pending : List Match}
    (hrecorded : ∀ m ∈ pending, m.number < findings.trail.next) :
    (descend findings pending).trail.Falls := by
  fun_induction descend findings pending with
  | case1 findings => exact h
  | case2 trail hits m pending below ih =>
    have hm := hrecorded m List.mem_cons_self
    have hadds := Findings.adds_visitAll ⟨trail, []⟩ hm m.value.children.reverse
    apply ih
    · exact Findings.falls_visitAll h hm _
    · intro m' hm'
      rcases List.mem_append.mp hm' with hm' | hm'
      · obtain ⟨added, hhits, hshows⟩ := hadds.hits
        rw [List.append_nil] at hhits
        rw [show below.hits = added.reverse from hhits, List.mem_reverse] at hm'
        exact hshows.recorded m' hm'
      · have hlt := hrecorded m' (List.mem_cons_of_mem m hm')
        exact Nat.lt_of_lt_of_le hlt hadds.within.next_le

/-- The trails while children of a match are visited one after the other. -/
inductive VisitMoment (container : Match) : Findings → List (Element × Value) → Trail → Prop where
  | now {findings : Findings} {children : List (Element × Value)} :
      VisitMoment container findings children findings.trail
  | later {findings : Findings} {c : Element × Value} {children : List (Element × Value)}
      {trail : Trail} (h : VisitMoment container (findings.visit container.number c) children trail) :
      VisitMoment container findings (c :: children) trail

/-- The trails while a loop goes through matches, where `during` are those of one turn. -/
inductive LoopMoment (turn : Findings → Match → Findings) (during : Findings → Match → Trail → Prop) :
    Findings → List Match → Trail → Prop where
  | now {findings : Findings} {found : List Match} :
      LoopMoment turn during findings found findings.trail
  | turn {findings : Findings} {m : Match} {found : List Match} {trail : Trail}
      (h : during findings m trail) : LoopMoment turn during findings (m :: found) trail
  | later {findings : Findings} {m : Match} {found : List Match} {trail : Trail}
      (h : LoopMoment turn during (turn findings m) found trail) :
      LoopMoment turn during findings (m :: found) trail

/-- The trails while a descent goes through pending values, visiting the children of each from the
last to the first. -/
inductive DescentMoment : Findings → List Match → Trail → Prop where
  | now {findings : Findings} {pending : List Match} :
      DescentMoment findings pending findings.trail
  | visits {findings : Findings} {m : Match} {pending : List Match} {trail : Trail}
      (h : VisitMoment m ⟨findings.trail, []⟩ m.value.children.reverse trail) :
      DescentMoment findings (m :: pending) trail
  | later {findings below : Findings} {m : Match} {pending : List Match} {trail : Trail}
      (hbelow : below = Findings.visitAll ⟨findings.trail, []⟩ m m.value.children.reverse)
      (h : DescentMoment ⟨below.trail, m :: findings.hits⟩ (below.hits ++ pending) trail) :
      DescentMoment findings (m :: pending) trail

namespace Stage

/-- The trails while children of the matches are picked. -/
def PickMoment (stage : Stage) (pick : Value → List (Element × Value)) : Trail → Prop :=
  LoopMoment (fun findings m => findings.visitAll m (pick m.value))
    (fun findings m => VisitMoment m findings (pick m.value)) ⟨stage.trail, []⟩ stage.found

/-- The trails during one step. -/
def StepMoment (root : Value) (stage : Stage) : Step → Trail → Prop
  | .root => fun trail => trail = stage.trail
  | .select selector => stage.PickMoment selector.pick
  | .wildcard => stage.PickMoment Value.children
  | .descent => DescentMoment ⟨stage.trail, []⟩ stage.found
  | .slice slice => stage.PickMoment slice.pick
  | .filter condition =>
    LoopMoment (Findings.visitWhere (condition.holds root))
      (fun findings m => VisitMoment m ⟨findings.trail, []⟩ m.value.children)
      ⟨stage.trail, []⟩ stage.found
  | .union selectors => stage.PickMoment fun v => selectors.flatMap (·.pick v)
  | .dynamic path =>
    let selectors := (run root .start path).values.filterMap Selector.ofValue?
    stage.PickMoment fun v => selectors.flatMap (·.pick v)

/-- The trails while the steps of a path are taken from a stage on. -/
inductive RunMoment (root : Value) : Stage → Path → Trail → Prop where
  | now {stage : Stage} {path : Path} : RunMoment root stage path stage.trail
  | step {stage : Stage} {step : Step} {path : Path} {trail : Trail}
      (h : stage.StepMoment root step trail) : RunMoment root stage (step :: path) trail
  | later {stage : Stage} {step : Step} {path : Path} {trail : Trail}
      (h : RunMoment root (advance root stage step) path trail) :
      RunMoment root stage (step :: path) trail

end Stage

/-- Two trails of one evaluation: that of the path, or that of the inner path of a dynamic step in
it, at any depth. -/
inductive TrailMoments (root : Value) : Path → Trail → Trail → Prop where
  | own {path : Path} {trail other : Trail} (h : Stage.RunMoment root .start path trail)
      (hother : Stage.RunMoment root .start path other) : TrailMoments root path trail other
  | inner {path inner : Path} {trail other : Trail} (hstep : Step.dynamic inner ∈ path)
      (h : TrailMoments root inner trail other) : TrailMoments root path trail other

theorem VisitMoment.within {container : Match} {findings : Findings}
    {children : List (Element × Value)} {trail : Trail}
    (h : VisitMoment container findings children trail) :
    trail.Within (findings.visitAll container children).trail := by
  induction h with
  | now => exact Findings.within_visitAll _ container _
  | later _ ih => exact ih

theorem LoopMoment.within {turn : Findings → Match → Findings}
    {during : Findings → Match → Trail → Prop} (hturn : Findings.Climbable turn)
    (hduring : ∀ findings m trail, during findings m trail → trail.Within (turn findings m).trail)
    {findings : Findings} {found : List Match} {trail : Trail}
    (h : LoopMoment turn during findings found trail) :
    trail.Within (found.foldl turn findings).trail := by
  induction h with
  | now => exact hturn.within_foldl _ _
  | turn h => exact (hduring _ _ _ h).trans (hturn.within_foldl _ _)
  | later _ ih => exact ih

theorem DescentMoment.within {findings : Findings} {pending : List Match} {trail : Trail}
    (h : DescentMoment findings pending trail) :
    trail.Within (descend findings pending).trail := by
  induction h with
  | now => exact within_descend _ _ _
  | visits h =>
    rw [descend]
    exact h.within.trans (within_descend _ _ _)
  | later hbelow _ ih =>
    rw [descend, ← hbelow]
    exact ih

namespace Stage

variable {root : Value} {stage : Stage} {trail : Trail}

theorem PickMoment.within {pick : Value → List (Element × Value)}
    (h : stage.PickMoment pick trail) : trail.Within (stage.pick pick).trail :=
  LoopMoment.within (Findings.climbable_visitAll pick) (fun _ _ _ h => h.within) h

theorem StepMoment.within {step : Step} (h : stage.StepMoment root step trail) :
    trail.Within (advance root stage step).trail := by
  cases step with
  | root =>
    cases h
    exact .refl _
  | descent => exact DescentMoment.within h
  | filter condition =>
    exact LoopMoment.within (Findings.climbable_visitWhere _) (fun _ _ _ h => h.within) h
  | _ => exact PickMoment.within h

theorem within_advance (root : Value) (stage : Stage) (step : Step) :
    stage.trail.Within (advance root stage step).trail := by
  apply StepMoment.within
  cases step with
  | root => rfl
  | descent => exact .now
  | _ => exact LoopMoment.now

theorem within_run (root : Value) (stage : Stage) (path : Path) :
    stage.trail.Within (run root stage path).trail := by
  induction path generalizing stage with
  | nil => exact .refl _
  | cons step path ih => exact (within_advance root stage step).trans (ih _)

theorem RunMoment.within {path : Path} (h : RunMoment root stage path trail) :
    trail.Within (run root stage path).trail := by
  induction h with
  | now => exact within_run root _ _
  | step h => exact h.within.trans (within_run root _ _)
  | later _ ih => exact ih

/-- The trail falls and has recorded the matches. -/
structure Climbable (stage : Stage) : Prop where
  falls : stage.trail.Falls
  recorded : ∀ m ∈ stage.found, m.number < stage.trail.next

theorem climbable_start : start.Climbable := ⟨Trail.falls_empty, by simp [start]⟩

theorem Climbable.falls_pick (h : stage.Climbable) (pick : Value → List (Element × Value)) :
    (stage.pick pick).trail.Falls :=
  (Findings.climbable_visitAll pick).falls_foldl h.falls h.recorded

theorem Climbable.advance (h : stage.Climbable) (root : Value) (step : Step) :
    (advance root stage step).Climbable where
  falls := by
    cases step with
    | root => exact h.falls
    | descent => exact falls_descend h.falls h.recorded
    | filter condition =>
      exact (Findings.climbable_visitWhere (condition.holds root)).falls_foldl h.falls h.recorded
    | dynamic path =>
      have hnoted : (stage.note ((JsonQuery.run root start path).finish path).events).Climbable :=
        ⟨h.falls, h.recorded⟩
      exact hnoted.falls_pick _
    | _ => exact h.falls_pick _
  recorded := by
    by_cases hroot : step = .root
    · subst hroot
      exact (shows_root root stage).recorded
    · obtain ⟨_, hadvance⟩ := exists_shows_advance root hroot
      exact (hadvance ⟨h.recorded, rfl⟩).recorded

theorem Climbable.run (h : stage.Climbable) (root : Value) (path : Path) :
    (run root stage path).Climbable := by
  induction path generalizing stage with
  | nil => exact h
  | cons step path ih => exact ih (h.advance root step)

theorem RunMoment.falls {path : Path} (h : RunMoment root start path trail) : trail.Falls :=
  h.within.falls (climbable_start.run root path).falls

end Stage

theorem TrailMoments.exists_run {root : Value} {path : Path} {trail other : Trail}
    (h : TrailMoments root path trail other) :
    ∃ path, Stage.RunMoment root .start path trail ∧ Stage.RunMoment root .start path other := by
  induction h with
  | own h hother => exact ⟨_, h, hother⟩
  | inner _ _ ih => exact ih

/-- At every moment of an evaluation, and of the evaluations that it comes with, the root has number
zero and no link, and every other number that has been given out has a link to a smaller one. So
climbing ends from each of them, namely at its location. A value visited next is one element below
its container, whichever that is, and what comes later on the same trail gives no number another
location. -/
theorem climbs_of_moments {root : Value} {path : Path} {trail later : Trail}
    (h : TrailMoments root path trail later) :
    (trail.link? Trail.root = none ∧ ∀ number, 0 < number → number < trail.next →
      ∃ link, trail.link? number = some link ∧ link.container < number) ∧
    (∀ number < trail.next, ∀ location,
      trail.Climbs number location ↔ location = trail.locate number) ∧
    (∀ container < trail.next, ∀ element location,
      (trail.push container element).Climbs trail.next location ↔
        location = trail.locate container ++ [element]) ∧
    (trail.next ≤ later.next → ∀ number < trail.next, ∀ location,
      later.Climbs number location ↔ trail.Climbs number location) := by
  obtain ⟨own, hmoment, hlater⟩ := h.exists_run
  have hfalls := hmoment.falls
  refine ⟨⟨rfl, ?_⟩, ?_, ?_, ?_⟩
  · intro number hpos hnumber
    obtain ⟨link, hlink⟩ := Trail.exists_link? hpos hnumber
    exact ⟨link, hlink, hfalls number link hlink⟩
  · intro number _ location
    exact hfalls.climbs_iff
  · intro container hc element location
    rw [(hfalls.push hc element).climbs_iff, Trail.locate_push hc]
  · intro hle number hnumber location
    have hwithin := hmoment.within.within_of_next_le hlater.within hle
    rw [hlater.falls.climbs_iff, hfalls.climbs_iff, hwithin.locate_eq hnumber]

/-- An inner path that descends two levels: its trail behind the first value that is visited, and
behind the second one. -/
theorem climbs_of_moments_descent :
    let root := Value.object [("a", .array [.null])]
    let path : Path := [.root, .dynamic [.root, .descent]]
    let trail := Trail.empty.push 0 (.key "a")
    let later := trail.push 1 (.index 0)
    TrailMoments root path trail later ∧ trail.Climbs 1 [.key "a"] ∧
      (trail.push 1 (.index 0)).Climbs 2 [.key "a", .index 0] ∧ later.Climbs 1 [.key "a"] := by
  intro root path trail later
  have hmoment : Stage.RunMoment root .start [.root, .descent] trail :=
    .later (.step (.visits (.later .now)))
  have hlater : Stage.RunMoment root .start [.root, .descent] later :=
    .later (.step (.later rfl (.visits (.later .now))))
  have h : TrailMoments root path trail later := .inner (by simp [path]) (.own hmoment hlater)
  have hempty : Trail.root < Trail.empty.next := by decide
  have hlocate : trail.locate 1 = [.key "a"] := by
    rw [show trail.locate 1 = _ from Trail.locate_push hempty (.key "a"), Trail.locate_root,
      List.nil_append]
  obtain ⟨-, hclimbs, hpush, hstays⟩ := climbs_of_moments h
  have hone : trail.Climbs 1 [.key "a"] := (hclimbs 1 (by decide) _).mpr hlocate.symm
  refine ⟨h, hone, ?_, (hstays (by decide) 1 (by decide) _).mpr hone⟩
  apply (hpush 1 (by decide) (.index 0) _).mpr
  rw [hlocate]
  rfl

end JsonQuery
