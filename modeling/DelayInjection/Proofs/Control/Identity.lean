import DelayInjection.Proofs.Control.Detection
import DelayInjection.Proofs.Control.Learning
import DelayInjection.Proofs.ObjectTable

-- Which accesses of a run are to the same object. A freed instance leaves its address to others,
-- so that accesses through one address are to one object only as long as nobody forgets it.

namespace DelayInjection

namespace Shared

theorem objects_objectFor (shared : Shared) (classification : Classification)
    (instance? : Option Address) :
    (shared.objectFor classification instance?).2.objects =
      if classification.requiresInstance then (shared.objects.idOf instance?).2
      else shared.objects := by
  unfold objectFor
  split <;> rfl

theorem fst_objectFor (shared : Shared) (classification : Classification)
    (instance? : Option Address) :
    (shared.objectFor classification instance?).1 =
      if classification.requiresInstance then (shared.objects.idOf instance?).1
      else staticObject := by
  unfold objectFor
  split <;> rfl

-- A call of a group with instance scope carries an instance.
theorem instance_of_classify {shared : Shared} {callee : String} {instance? : Option Address}
    {classification : Classification}
    (h : (shared.classify callee instance?).1 = some classification)
    (hscope : classification.requiresInstance = true) : ∃ address, instance? = some address := by
  obtain ⟨-, hkept⟩ := Option.filter_eq_some_iff.mp h
  rw [hscope] at hkept
  exact Option.isSome_iff_exists.mp hkept

theorem Booking.objects_eq {point : Point} {classification : Classification}
    {before after : Shared} {trap? : Option Trap}
    (h : Booking point classification before trap? after) : after.objects = before.objects := by
  cases h <;> rfl

end Shared

namespace Learned

theorem objects_classify (c : Learned) (call : Call) :
    (c.classify call).2.shared.objects = c.shared.objects := by
  unfold classify
  split <;> rfl

end Learned

namespace Controller

-- The identities that are in use.
def objects (c : Controller) : ObjectTable := c.shared.objects

theorem objects_approach (c : Controller) (call : Call) :
    (c.approach call).2.2.objects =
      match (c.approach call).2.1 with
      | none => c.objects
      | some access => (c.shared.objectFor access.classification call.instance?).2.objects := by
  simp only [Shared.objects_objectFor]
  cases c with
  | randomized c =>
      have hclass : (c.shared.classify call.callee call.instance?).2.objects = c.shared.objects :=
        rfl
      simp only [approach, objects, shared, Randomized.approach, Randomized.identify]
      generalize c.shared.classify call.callee call.instance? = classified at hclass ⊢
      obtain ⟨_ | classification, classified⟩ := classified
      · exact hclass
      · dsimp only at hclass ⊢
        rw [Shared.objects_objectFor, hclass]
  | learned c =>
      have hclass : (c.classified call).2.shared.objects = c.shared.objects :=
        (c.stamp call).2.2.objects_classify call
      have happroached := c.approached call
      simp only [approach, objects, shared]
      generalize c.approach call = approach at happroached ⊢
      cases happroached with
      | noted unclassed => exact hclass
      | learned classification classed =>
          dsimp only
          rw [Learned.learn_shared, ← hclass, ← Shared.objects_objectFor]
          rfl

theorem objects_check (c : Controller) (access : Access) :
    (c.check access).2.2.objects = c.objects :=
  (c.check_booking access).objects_eq

theorem objects_advance (c : Controller) (stage : Stage) :
    (c.advance stage).2.2.objects = c.objects := by
  cases stage with
  | checking access => exact c.objects_check access
  | handling racing conflicts race? trap? =>
      cases conflicts with
      | cons conflict rest =>
          rw [advance, objects, shared_withShared, Shared.face_shared]
          rfl
      | nil => cases trap? <;> rfl
  | settling phase racing conflict rest race? trap? => rfl
  | asleep wait => rw [advance, objects, shared_afterWait, objects]
  | awake wait =>
      rw [advance, objects, shared_withShared]
      rfl
  | removed wait =>
      rw [advance, objects, shared_withShared]
      rfl

theorem objects_forget (c : Controller) (address : Address) :
    (c.forget address).2.2.objects = (c.objects.forget address).2 := by
  cases c with
  | randomized c => rfl
  | learned c =>
      simp only [forget, objects, shared, Learned.forget]
      split <;> rfl

theorem fst_forget (c : Controller) (address : Address) :
    (c.forget address).1 = c.objects.ids.get? address := by
  cases c with
  | randomized c => rfl
  | learned c =>
      simp only [forget, objects, shared, Learned.forget]
      split
      · rename_i h
        exact h.symm
      · rename_i h
        exact h.symm

-- A call of a group with instance scope asks for the identity of its address.
theorem instance_of_class {c : Controller} {call : Call} {classification : Classification}
    (h : c.classOf call = some classification) (hscope : classification.requiresInstance = true) :
    ∃ address, call.instance? = some address := by
  cases c with
  | randomized c => exact Shared.instance_of_classify h hscope
  | learned c =>
      rw [classOf, Learned.classify_answer] at h
      split at h
      · cases h
      · exact Shared.instance_of_classify h hscope

-- The earlier accesses with which an access is compared.
def candidates (c : Controller) (access : Access) : List Point :=
  match c with
  | .randomized _ => []
  | .learned c => c.accesses.queue access.classification.group.name access.point.object

end Controller

namespace Interleaving

-- The state that some actions lead to.
def Reaches (s : Interleaving) (actions : List Action) (s' : Interleaving) : Prop :=
  ∃ outputs, s.exec actions = some (outputs, s')

-- A call that arrives and has a class, with the access that it amounts to.
structure Arrives (s : Interleaving) (call : Call) (access : Access) (s' : Interleaving) :
    Prop where
  step : ∃ output, s.step (.arrive call) = some (output, s')
  access : (s.controller.approach call).2.1 = some access

section

variable {s s' s'' : Interleaving} {action : Action} {output : Output}

theorem Reaches.refl (s : Interleaving) : s.Reaches [] s := ⟨[], rfl⟩

theorem Reaches.cons {rest : List Action} (hstep : s.step action = some (output, s'))
    (hrest : s'.Reaches rest s'') : s.Reaches (action :: rest) s'' := by
  obtain ⟨outputs, hexec⟩ := hrest
  exact ⟨output :: outputs, exec_cons hstep hexec⟩

theorem Reaches.uncons {rest : List Action} (h : s.Reaches (action :: rest) s'') :
    ∃ output s', s.step action = some (output, s') ∧ s'.Reaches rest s'' := by
  obtain ⟨outputs, hexec⟩ := h
  obtain ⟨output, next, later, hstep, hrest, -⟩ := exec_uncons hexec
  exact ⟨output, next, hstep, later, hrest⟩

theorem Reaches.trans {first second : List Action} (hfirst : s.Reaches first s')
    (hsecond : s'.Reaches second s'') : s.Reaches (first ++ second) s'' := by
  obtain ⟨before, hbefore⟩ := hfirst
  obtain ⟨after, hafter⟩ := hsecond
  exact ⟨before ++ after, exec_append hbefore hafter⟩

theorem Arrives.reaches {call : Call} {access : Access} (h : s.Arrives call access s') :
    s.Reaches [.arrive call] s' := by
  obtain ⟨output, hstep⟩ := h.step
  exact Reaches.cons hstep (.refl _)

theorem Arrives.of {call : Call} {access : Access} (h : s.Arrives call access s') :
    access.Of s.controller call :=
  s.controller.approach_of call h.access

-- Identities change only when an identity is asked for, or an address is forgotten.
theorem objects_step {P : ObjectTable → Prop}
    (hask : ∀ table address, P table → P (table.idOf (some address)).2)
    (hforget : ∀ address, action = .forget address → ∀ table, P table → P (table.forget address).2)
    (hstep : s.step action = some (output, s')) (h : P s.controller.objects) :
    P s'.controller.objects := by
  cases stepped hstep with
  | arrive call _ =>
      dsimp only
      rw [Controller.objects_approach]
      cases (s.controller.approach call).2.1 with
      | none => exact h
      | some access =>
          dsimp only
          rw [Shared.objects_objectFor]
          split
          · cases call.instance? with
            | none => exact h
            | some address => exact hask _ address h
          · exact h
  | advance thread stage _ =>
      dsimp only
      rw [Controller.objects_advance]
      exact h
  | forget address =>
      dsimp only
      rw [Controller.objects_forget]
      exact hforget address rfl _ h

theorem objects_reaches {P : ObjectTable → Prop} {actions : List Action}
    (hask : ∀ table address, P table → P (table.idOf (some address)).2)
    (hforget : ∀ address, .forget address ∈ actions → ∀ table, P table →
      P (table.forget address).2)
    (hreaches : s.Reaches actions s') (h : P s.controller.objects) : P s'.controller.objects := by
  induction actions generalizing s with
  | nil =>
      obtain ⟨outputs, hexec⟩ := hreaches
      obtain ⟨-, rfl⟩ := Prod.mk.inj (Option.some.inj hexec)
      exact h
  | cons action rest ih =>
      obtain ⟨output, next, hstep, hrest⟩ := hreaches.uncons
      refine ih (fun address hm => hforget address (List.mem_cons_of_mem _ hm)) hrest ?_
      refine objects_step hask ?_ hstep h
      rintro address rfl
      exact hforget address List.mem_cons_self

theorem sound_reaches {actions : List Action} (hreaches : s.Reaches actions s')
    (h : s.controller.objects.Sound) : s'.controller.objects.Sound :=
  objects_reaches (fun _ address h => h.idOf address) (fun address _ _ h => h.forget address)
    hreaches h

theorem reserved_reaches {actions : List Action} {address : Address} {id : ObjectId}
    (hreaches : s.Reaches actions s') (h : s.controller.objects.Reserved address id) :
    s'.controller.objects.Reserved address id :=
  objects_reaches (fun _ other h => h.idOf other) (fun other _ _ h => h.forget other) hreaches h

theorem retired_reaches {actions : List Action} {id : ObjectId}
    (hreaches : s.Reaches actions s') (h : s.controller.objects.Retired id) :
    s'.controller.objects.Retired id :=
  objects_reaches (fun _ other h => h.idOf other) (fun other _ _ h => h.forget other) hreaches h

-- An address keeps its identity until it is forgotten.
theorem identity_reaches {actions : List Action} {address : Address} {id : ObjectId}
    (hreaches : s.Reaches actions s') (hkept : .forget address ∉ actions)
    (h : s.controller.objects.ids.get? address = some id) :
    s'.controller.objects.ids.get? address = some id := by
  refine objects_reaches (P := fun table => table.ids.get? address = some id) ?_ ?_ hreaches h
  · intro _ other hget
    exact ObjectTable.get?_idOf hget other
  · intro other hm _ hget
    refine ObjectTable.get?_forget hget ?_
    rintro rfl
    exact hkept hm

-- From then on nobody has it.
theorem retired_of_forgotten {actions : List Action} {address : Address} {id : ObjectId}
    (hreaches : s.Reaches actions s') (hforgotten : .forget address ∈ actions)
    (hsound : s.controller.objects.Sound)
    (h : s.controller.objects.ids.get? address = some id) :
    s'.controller.objects.Retired id := by
  induction actions generalizing s with
  | nil => cases hforgotten
  | cons action rest ih =>
      obtain ⟨output, next, hstep, hrest⟩ := hreaches.uncons
      by_cases hnow : action = .forget address
      · subst hnow
        cases stepped hstep
        refine retired_reaches hrest ?_
        dsimp only
        rw [Controller.objects_forget]
        exact hsound.retired h
      · -- the address is forgotten later
        have hlater := (List.mem_cons.mp hforgotten).resolve_left fun he => hnow he.symm
        have hone : s.Reaches [action] next := Reaches.cons hstep (.refl _)
        refine ih hrest hlater (sound_reaches hone hsound) (identity_reaches hone ?_ h)
        intro hm
        exact hnow (List.mem_singleton.mp hm).symm

theorem Arrives.object_static {call : Call} {access : Access} (h : s.Arrives call access s')
    (hscope : access.classification.requiresInstance = false) :
    access.point.object = staticObject := by
  rw [h.of.object, Controller.objectOf, Shared.fst_objectFor, hscope]
  rfl

-- An access of a group with instance scope has the identity of its address.
theorem Arrives.object_instance {call : Call} {access : Access} (h : s.Arrives call access s')
    (hscope : access.classification.requiresInstance = true) :
    ∃ address, call.instance? = some address ∧
      access.point.object = (s.controller.objects.idOf (some address)).1 ∧
      s'.controller.objects = (s.controller.objects.idOf (some address)).2 := by
  obtain ⟨address, hinstance⟩ := Controller.instance_of_class h.of.classification hscope
  refine ⟨address, hinstance, ?_, ?_⟩
  · rw [h.of.object, Controller.objectOf, Shared.fst_objectFor, hscope, hinstance]
    rfl
  · obtain ⟨output, hstep⟩ := h.step
    cases stepped hstep
    dsimp only
    rw [Controller.objects_approach, h.access]
    dsimp only
    rw [Shared.objects_objectFor, hscope, hinstance]
    rfl

theorem Arrives.static_lt_object {call : Call} {access : Access} (h : s.Arrives call access s')
    (hsound : s.controller.objects.Sound)
    (hscope : access.classification.requiresInstance = true) :
    staticObject < access.point.object := by
  obtain ⟨address, -, hobject, -⟩ := h.object_instance hscope
  rw [hobject]
  exact hsound.static_lt_idOf address

-- Two accesses to instances are to one object as long as their address is not forgotten.
theorem object_eq_iff_instances {t t' : Interleaving} {call call' : Call}
    {access access' : Access} {between : List Action} (hsound : s.controller.objects.Sound)
    (hfirst : s.Arrives call access s') (hbetween : s'.Reaches between t)
    (hsecond : t.Arrives call' access' t')
    (hscope : access.classification.requiresInstance = true)
    (hscope' : access'.classification.requiresInstance = true) :
    access.point.object = access'.point.object ↔
      call.instance? = call'.instance? ∧
        ∀ address, call.instance? = some address → .forget address ∉ between := by
  obtain ⟨address, hinstance, hobject, hobjects⟩ := hfirst.object_instance hscope
  obtain ⟨address', hinstance', hobject', -⟩ := hsecond.object_instance hscope'
  have hknown : s'.controller.objects.ids.get? address = some access.point.object := by
    rw [hobjects, hobject, ObjectTable.get?_idOf_self]
  have hafter := sound_reaches hfirst.reaches hsound
  rw [hinstance, hinstance', hobject']
  constructor
  · intro hsame
    have hreserved := reserved_reaches hbetween (hafter.reserved hknown)
    obtain rfl := hreserved.eq_of_idOf hsame.symm
    refine ⟨rfl, ?_⟩
    rintro other he hforgotten
    obtain rfl := Option.some.inj he
    exact (retired_of_forgotten hbetween hforgotten hafter hknown).idOf_ne _ hsame.symm
  · rintro ⟨hsame, hkept⟩
    obtain rfl := Option.some.inj hsame
    rw [ObjectTable.idOf_of_some (identity_reaches hbetween (hkept address rfl) hknown)]

end

-- Whether two calls with some actions between them are to one object: both are to what is
-- static, or both are to the instance at one address, which was not forgotten in between.
def SameObject (call : Call) (access : Access) (between : List Action) (call' : Call)
    (access' : Access) : Prop :=
  (access.classification.group.isStatic = true ∧ access'.classification.group.isStatic = true) ∨
  (access.classification.group.isStatic = false ∧ access'.classification.group.isStatic = false ∧
    call.instance? = call'.instance? ∧
    ∀ address, call.instance? = some address → .forget address ∉ between)

theorem object_eq_iff {s s' t t' : Interleaving} {call call' : Call} {access access' : Access}
    {between : List Action} (hsound : s.controller.objects.Sound)
    (hfirst : s.Arrives call access s') (hbetween : s'.Reaches between t)
    (hsecond : t.Arrives call' access' t') :
    access.point.object = access'.point.object ↔
      SameObject call access between call' access' := by
  have hscope : ∀ access : Access, access.classification.requiresInstance =
      !access.classification.group.isStatic := fun _ => rfl
  have hlater := sound_reaches hbetween (sound_reaches hfirst.reaches hsound)
  unfold SameObject
  cases hstatic : access.classification.group.isStatic <;>
    cases hstatic' : access'.classification.group.isStatic
  · have hiff := object_eq_iff_instances hsound hfirst hbetween hsecond
      (by rw [hscope, hstatic]; rfl) (by rw [hscope, hstatic']; rfl)
    simpa using hiff
  · have hpos := hfirst.static_lt_object hsound (by rw [hscope, hstatic]; rfl)
    have hzero := hsecond.object_static (by rw [hscope, hstatic']; rfl)
    rw [hzero]
    simpa using Nat.ne_of_gt hpos
  · have hzero := hfirst.object_static (by rw [hscope, hstatic]; rfl)
    have hpos := hsecond.static_lt_object hlater (by rw [hscope, hstatic']; rfl)
    rw [hzero]
    simpa using Nat.ne_of_lt hpos
  · have hzero := hfirst.object_static (by rw [hscope, hstatic]; rfl)
    have hzero' := hsecond.object_static (by rw [hscope, hstatic']; rfl)
    simp [hzero, hzero']

-- The queues of a learned controller hold accesses to their own objects.
theorem filed_step {s s' : Interleaving} {action : Action} {output : Output}
    (h : ∀ c, s.controller = .learned c → c.accesses.Filed)
    (hstep : s.step action = some (output, s')) :
    ∀ c, s'.controller = .learned c → c.accesses.Filed := by
  intro after hafter
  have halgorithm := congrArg Prod.fst (step_settings hstep)
  cases hc : s.controller with
  | randomized c =>
      rw [hafter, hc] at halgorithm
      cases halgorithm
  | learned c =>
      obtain ⟨after', hafter', hchanged⟩ := step_changed hc hstep
      obtain rfl := Controller.learned.inj (hafter.symm.trans hafter')
      have hfiled := h c hc
      cases hchanged with
      | heard heard =>
          rw [heard.accesses]
          split
          · exact hfiled
          · exact hfiled.push _ _
      | forgot id silent params lockApis accesses danger found =>
          rw [accesses]
          exact hfiled.forget id

theorem filed_of_fresh {start : Controller} (h : start.Fresh) :
    ∀ c, start = .learned c → c.accesses.Filed := by
  rintro c rfl group object point hm
  cases h
  cases hm

theorem filed_reaches {start : Controller} (hfresh : start.Fresh) {actions : List Action}
    {s : Interleaving} (h : Reaches { controller := start } actions s) :
    ∀ c, s.controller = .learned c → c.accesses.Filed := by
  obtain ⟨outputs, hexec⟩ := h
  refine exec_induction (P := fun _ s => ∀ c, s.controller = .learned c → c.accesses.Filed)
    ?_ hexec (filed_of_fresh hfresh)
  intro _ _ _ _ _ hfiled hstep
  exact filed_step hfiled hstep

-- An access is compared with accesses to its own object only.
theorem object_of_candidate {c : Controller}
    (h : ∀ learned, c = .learned learned → learned.accesses.Filed) {access : Access}
    {point : Point} (hm : point ∈ c.candidates access) : point.object = access.point.object := by
  cases c with
  | randomized c => cases hm
  | learned c => exact h c rfl _ _ point hm

-- A conflict is with a trap on the object of the access only.
theorem object_of_conflict {s : Interleaving} (h : s.Booked) {access : Access} {trap : Trap}
    (hm : trap ∈ s.controller.conflicts access) : trap.point.object = access.point.object :=
  (h.sound.placed _ _ trap ((s.controller.conflicts_sublist access).subset hm)).2

-- What the identities of a run promise from one of its states on.
structure Identifies (s : Interleaving) : Prop where
  instance_ne_static : ∀ {call access s'}, s.Arrives call access s' →
    access.classification.group.isStatic = false → access.point.object ≠ staticObject
  same_iff : ∀ {call access s' between t call' access' t'}, s.Arrives call access s' →
    s'.Reaches between t → t.Arrives call' access' t' →
      (access.point.object = access'.point.object ↔
        SameObject call access between call' access')
  -- a forgotten identity is not given out again
  retired : ∀ {address id later t call access t'}, (s.controller.forget address).1 = some id →
    s.Reaches (.forget address :: later) t → t.Arrives call access t' → access.point.object ≠ id
  -- accesses through one address before and after it was forgotten are never compared, and
  -- neither runs into a trap of the other, whatever traps are still in place
  apart : ∀ {address call access s' between t call' access' t'}, s.Arrives call access s' →
    access.classification.group.isStatic = false → call.instance? = some address →
    s'.Reaches between t → .forget address ∈ between → t.Arrives call' access' t' →
    call'.instance? = some address →
      access.point ∉ t.controller.candidates access' ∧
      ∀ {later u}, t'.Reaches later u →
        (∀ trap ∈ u.controller.conflicts access', trap.point ≠ access.point.captureStack) ∧
        ∀ trap ∈ u.controller.conflicts access, trap.point ≠ access'.point.captureStack

theorem objects_of_fresh {start : Controller} (h : start.Fresh) : start.objects = {} := by
  cases h <;> rfl

theorem booked_reaches {s s' : Interleaving} {actions : List Action} (h : s.Booked)
    (hreaches : s.Reaches actions s') : s'.Booked := by
  obtain ⟨outputs, hexec⟩ := hreaches
  exact h.exec hexec

-- Two calls are to one object if and only if both are static, or both are to the instance at one
-- address that nobody forgot in between. Identities of instances are never reused, so that
-- accesses before and after an address was forgotten have nothing to do with each other.
theorem object_identity {start : Controller} (hfresh : start.Fresh) {before : List Action}
    {s : Interleaving} (hreaches : Reaches { controller := start } before s) : s.Identifies := by
  have hsound : s.controller.objects.Sound := by
    refine sound_reaches hreaches ?_
    rw [objects_of_fresh hfresh]
    exact .fresh
  refine ⟨?_, ?_, ?_, ?_⟩
  · intro call access s' harrives hstatic
    have hscope : access.classification.requiresInstance = true := by
      rw [Classification.requiresInstance, hstatic]
      rfl
    exact Nat.ne_of_gt (harrives.static_lt_object hsound hscope)
  · intro call access s' between t call' access' t' hfirst hbetween hsecond
    exact object_eq_iff hsound hfirst hbetween hsecond
  · intro address id later t call access t' hforgotten hlater harrives he
    rw [Controller.fst_forget] at hforgotten
    have hretired := retired_of_forgotten hlater List.mem_cons_self hsound hforgotten
    cases hscope : access.classification.requiresInstance with
    | false =>
        -- what is static has no identity that could be forgotten
        have hpos := (hsound.given address id hforgotten).1
        rw [← he, harrives.object_static hscope] at hpos
        exact Nat.lt_irrefl _ hpos
    | true =>
        obtain ⟨other, -, hobject, -⟩ := harrives.object_instance hscope
        exact hretired.idOf_ne other (hobject.symm.trans he)
  · intro address call access s' between t call' access' t' hfirst hstatic hinstance hbetween
      hforgotten hsecond hinstance'
    have hne : access.point.object ≠ access'.point.object := by
      rw [Ne, object_eq_iff hsound hfirst hbetween hsecond, SameObject, hstatic]
      simp [hinstance, hforgotten]
    have hmiddle := hreaches.trans (hfirst.reaches.trans hbetween)
    refine ⟨?_, ?_⟩
    · intro hm
      exact hne (object_of_candidate (filed_reaches hfresh hmiddle) hm)
    · intro later u hlater
      have hbooked := booked_reaches hfresh.booked
        (hmiddle.trans (hsecond.reaches.trans hlater))
      refine ⟨?_, ?_⟩
      · intro trap hm he
        have hobject := object_of_conflict hbooked hm
        rw [he] at hobject
        exact hne hobject
      · intro trap hm he
        have hobject := object_of_conflict hbooked hm
        rw [he] at hobject
        exact hne hobject.symm

-- An address that is used again while a trap on the instance that it had is still in place: the
-- second access neither runs into the trap nor is compared with the first one.
theorem object_identity_of_reused :
    ∃ (s t t' : Interleaving) (access access' : Access),
      Arrives { controller := Sample.tracked } (Sample.put 1) access s ∧
        s.Reaches [.advance 1, .advance 1, .forget 64] t ∧ t.Arrives (Sample.put 2) access' t' ∧
        t'.controller.shared.traps.outstanding = 1 ∧
        access.point.object ≠ access'.point.object ∧
        access.point ∉ t.controller.candidates access' ∧
        ∀ trap ∈ t'.controller.conflicts access', trap.point ≠ access.point.captureStack := by
  let start : Interleaving := { controller := Sample.tracked }
  have hready : (start.step (.arrive (Sample.put 1))).any (fun first =>
      (first.2.exec [.advance 1, .advance 1, .forget 64]).any fun second =>
        (second.2.step (.arrive (Sample.put 2))).any fun third =>
          third.2.controller.shared.traps.outstanding == 1 &&
          (second.2.controller.approach (Sample.put 2)).2.1.isSome &&
          (start.controller.approach (Sample.put 1)).2.1.any fun access =>
            access.classification.group.isStatic == false) = true := by
    decide +kernel
  obtain ⟨⟨output, s⟩, hfirst, hready⟩ := (Option.any_eq_true _ _).mp hready
  obtain ⟨⟨outputs, t⟩, hbetween, hready⟩ := (Option.any_eq_true _ _).mp hready
  obtain ⟨⟨output', t'⟩, hsecond, hready⟩ := (Option.any_eq_true _ _).mp hready
  obtain ⟨hready, hscope⟩ := Bool.and_eq_true_iff.mp hready
  obtain ⟨hwaiting, hclass⟩ := Bool.and_eq_true_iff.mp hready
  obtain ⟨access, haccess, hinstance⟩ := (Option.any_eq_true _ _).mp hscope
  obtain ⟨access', haccess'⟩ := Option.isSome_iff_exists.mp hclass
  have harrives : Arrives start (Sample.put 1) access s := ⟨⟨output, hfirst⟩, haccess⟩
  have hreaches : s.Reaches [.advance 1, .advance 1, .forget 64] t := ⟨outputs, hbetween⟩
  have harrives' : Arrives t (Sample.put 2) access' t' := ⟨⟨output', hsecond⟩, haccess'⟩
  have hidentifies : start.Identifies :=
    object_identity (.learned _ _ _ _ _ _) (Reaches.refl start)
  have hforgotten : Action.forget 64 ∈ [.advance 1, .advance 1, .forget 64] := by simp
  obtain ⟨hcandidates, hconflicts⟩ := hidentifies.apart harrives (beq_iff_eq.mp hinstance) rfl
    hreaches hforgotten harrives' rfl
  refine ⟨s, t, t', access, access', harrives, hreaches, harrives', beq_iff_eq.mp hwaiting, ?_,
    hcandidates, (hconflicts (.refl t')).1⟩
  intro hsame
  rcases (hidentifies.same_iff harrives hreaches harrives').mp hsame with ⟨hstatic, -⟩ | hkept
  · rw [beq_iff_eq.mp hinstance] at hstatic
    cases hstatic
  · exact hkept.2.2.2 64 rfl hforgotten

end Interleaving

end DelayInjection
