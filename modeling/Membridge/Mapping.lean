import Membridge.ViewRuns

/-!
Mapping a segment while its lock is in use. A creator's map stores zero into the
lock word every time; the lock keeps working exactly as far as that store finds
a zero.
-/
namespace Membridge.Mapping
open Program Interleaving Typestate Python ByteOrder Arithmetic Segment Occupancy
open RwLock Exclusion View ViewRuns

/-- The handle is a creator's, and `new` accepts its size: the word is stored. -/
def Inits (handle : SharedMemory) (mapping : PyResult Unit) : Prop :=
  mapping.isOk = true ∧ handle.isCreator = true ∧ rwlockSize < handle.size

instance (handle : SharedMemory) (mapping : PyResult Unit) : Decidable (Inits handle mapping) :=
  inferInstanceAs (Decidable (_ ∧ _))

theorem new_leaves {size : Nat} (large : rwlockSize < size) (id : Nat)
    (isCreator : Bool) (m : SegMem) :
    (Prog.solo SegMem.exec (new id size isCreator).run m).map (fun result => result.2.state) =
      some (if isCreator then 0 else m.state) := by
  rw [new, dif_neg (Nat.not_le.mpr large)]
  cases isCreator <;> rfl

theorem map_leaves (handle : SharedMemory) (mapping : PyResult Unit) (id : Nat) (m : SegMem) :
    (Prog.solo SegMem.exec (map handle mapping id).run m).map (fun result => result.2.state) =
      some (if Inits handle mapping then 0 else m.state) := by
  cases mapping with
  | error e =>
      have failed : ¬ Inits handle (.error e) := fun inits => nomatch inits.1
      rw [if_neg failed]
      rfl
  | ok _ =>
      rw [map, Prog.solo_run_ok rfl]
      rcases Nat.lt_or_ge rwlockSize handle.size with large | small
      · rw [new_leaves large]
        congr 1
        by_cases creator : handle.isCreator = true
        · rw [if_pos creator, if_pos ⟨rfl, creator, large⟩]
        · rw [if_neg creator, if_neg fun inits => creator inits.2.1]
      · rw [if_neg fun inits => Nat.not_lt.mpr small inits.2.2, new, dif_pos small]
        rfl

/-- A map leaves the lock word as it is exactly when it does not store it, or finds zero. -/
theorem map_leaves_iff (handle : SharedMemory) (mapping : PyResult Unit) (id : Nat) (m : SegMem) :
    (Prog.solo SegMem.exec (map handle mapping id).run m).map (fun result => result.2.state) =
        some m.state ↔ (Inits handle mapping → m.state = 0) := by
  rw [map_leaves, Option.some.injEq]
  by_cases inits : Inits handle mapping
  · rw [if_pos inits]
    exact ⟨fun same _ => same.symm, fun zero => (zero inits).symm⟩
  · simp [inits]

section Runs
variable {T : Type} [DecidableEq T]

/-- Every store of the word by a map finds zero in it. -/
def MapsUnlocked (world : ViewWorld T) (_ : T) (c : ViewCall) (o : SegOp) : Prop :=
  match c, o with
  | .map _ _ _, .storeState _ => world.mem.state = 0
  | _, _ => True

instance (world : ViewWorld T) (t : T) (c : ViewCall) (o : SegOp) :
    Decidable (MapsUnlocked world t c o) := by
  unfold MapsUnlocked
  split <;> infer_instance

variable [Target] {build : Build} {views : T → MappedView}

theorem mapping_used [Fintype T] (few : Fintype.card T < 2 ^ 31) :
    LockUsed (fun c => isMap c = true)
      ((viewSystem build views fun _ _ => True).under MapsUnlocked) where
  few := few
  sem _ _ _ _ _ _ := Iff.rfl
  code t c _ := viewCode_follows build (views t) c
  init world t c v maps enabled _ := by
    cases c with
    | map handle mapping id => exact enabled.2
    | _ => cases maps

/-- Mapping is harmless exactly as far as it leaves the lock word alone: one call does so
if and only if it does not store the word or finds zero in it, and in a run in which every
map does, no writer is ever inside with anybody else and the word stays above -1, above 0
while readers are inside. -/
theorem map_keeps_exclusion [Fintype T] (few : Fintype.card T < 2 ^ 31) {mem : SegMem}
    (unlocked : mem.state = 0) :
    (∀ handle mapping id (now : SegMem),
      (Prog.solo SegMem.exec (map handle mapping id).run now).map (fun result => result.2.state) =
          some now.state ↔ (Inits handle mapping → now.state = 0)) ∧
    ∀ cfg, Reachable ((viewSystem build views fun _ _ => True).under MapsUnlocked) mem cfg →
      (∀ t u, phases cfg.world.log t = .writing → u ≠ t → phases cfg.world.log u = .out) ∧
      -1 ≤ cfg.world.mem.state.toInt ∧
      ∀ t, phases cfg.world.log t = .reading → 0 < cfg.world.mem.state.toInt := by
  refine ⟨map_leaves_iff, ?_⟩
  intro cfg reach
  have encodes := (excluded (mapping_used few) unlocked reach).encodes
  refine ⟨fun t u inside other => encodes.alone inside other, encodes.at_least, ?_⟩
  intro t inside
  have positive := readers_pos inside
  have count := encodes.count
  split at count <;> omega

omit [Target]

/-- The handle of the process that created a segment of 8 bytes, and one that opened it. -/
def creator : SharedMemory := ⟨⟨3, 8, "/segment"⟩, true⟩

def opener : SharedMemory := ⟨⟨3, 8, "/segment"⟩, false⟩

def anyView : MappedView := ⟨0, 8, by decide⟩

/-- An opener maps while a writer is inside, then the writer leaves and the creator maps. -/
def mapAround : List (Interleaving.Choice (Fin 3) ViewCall) :=
  [[.call 0 (.write (.bool true) (some 0))], turns 0 1,
    [.call 1 (.map opener (.ok ()) 1)], turns 1 1, turns 0 2,
    [.call 1 (.map creator (.ok ()) 2)], turns 1 2,
    [.call 2 (.write (.bool false) (some 0))], turns 2 1].flatten

theorem map_keeps_exclusion_mapAround :
    ∃ cfg : ViewConfig (Fin 3), phases cfg.world.log 2 = .writing ∧
      ∀ u, u ≠ 2 → phases cfg.world.log u = .out := by
  have ran : (schedule ((@viewSystem (Fin 3) littleEndian .release (fun _ => anyView)
      fun _ _ => True).under MapsUnlocked) (fun _ _ o m => SegMem.exec o m) mapAround
      (.initial ⟨0, fun _ => 0, fun _ => 0⟩)).map (fun cfg => phases cfg.world.log 2) =
        some .writing := by
    decide +kernel
  obtain ⟨cfg, reach, inside⟩ := schedule_reaches
    (under_faithful (@view_faithful _ littleEndian _ _ _)) ran
  have holds := (@map_keeps_exclusion _ _ littleEndian _ _ _ (by decide) _ rfl).2 cfg reach
  exact ⟨cfg, inside, fun u other => holds.1 2 u inside other⟩

/-- The creator maps a second time while a writer is inside, and another one enters. -/
def mapInside : List (Interleaving.Choice (Fin 3) ViewCall) :=
  [[.call 0 (.write (.bool true) (some 0))], turns 0 1,
    [.call 1 (.map creator (.ok ()) 1)], turns 1 2,
    [.call 2 (.write (.bool false) (some 0))], turns 2 1].flatten

/-- The creator maps while a reader is inside; a writer enters, and the reader leaves. -/
def mapUnderReader : List (Interleaving.Choice (Fin 3) ViewCall) :=
  [[.call 0 .readAll], turns 0 2, [.call 1 (.map creator (.ok ()) 1)], turns 1 2,
    [.call 2 (.write (.bool false) (some 0))], turns 2 1, turns 0 5].flatten

/-- Two writers inside at once; a word below -1. -/
theorem map_breaks_exclusion :
    (∃ cfg, Reachable (@viewSystem (Fin 3) littleEndian .release (fun _ => anyView)
        fun _ _ => True) ⟨0, fun _ => 0, fun _ => 0⟩ cfg ∧
      phases cfg.world.log 0 = .writing ∧ phases cfg.world.log 2 = .writing) ∧
    ∃ cfg, Reachable (@viewSystem (Fin 3) littleEndian .release (fun _ => anyView)
        fun _ _ => True) ⟨0, fun _ => 0, fun _ => 0⟩ cfg ∧
      cfg.world.mem.state.toInt = -2 := by
  constructor
  · have ran : (schedule (@viewSystem (Fin 3) littleEndian .release (fun _ => anyView)
        fun _ _ => True) (fun _ _ o m => SegMem.exec o m) mapInside
        (.initial ⟨0, fun _ => 0, fun _ => 0⟩)).map
          (fun cfg => (phases cfg.world.log 0, phases cfg.world.log 2)) =
        some (.writing, .writing) := by
      decide +kernel
    obtain ⟨cfg, reach, result⟩ := schedule_reaches (@view_faithful _ littleEndian _ _ _) ran
    exact ⟨cfg, reach, Prod.mk.inj result⟩
  · have ran : (schedule (@viewSystem (Fin 3) littleEndian .release (fun _ => anyView)
        fun _ _ => True) (fun _ _ o m => SegMem.exec o m) mapUnderReader
        (.initial ⟨0, fun _ => 0, fun _ => 0⟩)).map (fun cfg => cfg.world.mem.state.toInt) =
        some (-2) := by
      decide +kernel
    obtain ⟨cfg, reach, below⟩ := schedule_reaches (@view_faithful _ littleEndian _ _ _) ran
    exact ⟨cfg, reach, below⟩

end Runs
end Membridge.Mapping
