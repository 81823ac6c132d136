import FogMarket.Library.Map
import FogMarket.Objects.Function

namespace Fog

-- The database of the functions a fog node has bidden on.
abbrev FunctionTracking :=
  Map SlaId States

namespace FunctionTracking

variable (db : FunctionTracking) (id : SlaId)

-- A record is written over whatever is stored for its SLA.
def insert (record : Proposed) : FunctionTracking :=
  Finmap.insert record.sla.id (.proposed record) db

-- A record is only written over one which is in a phase that allows it.
def save (allowed : Phase → Bool) (record : States) : FunctionTracking :=
  match db.lookup id with
  | none          => db
  | some previous => if allowed previous.phase then Finmap.insert id record db else db

def savePaid (record : Paid) : FunctionTracking :=
  save db id (· = .proposed) (.paid record)

def saveProvisioned (record : Provisioned) : FunctionTracking :=
  save db id (· = .paid) (.provisioned record)

def saveLive (record : Live) : FunctionTracking :=
  save db id (· = .provisioned) (.live record)

def saveFinished (record : Finished) : FunctionTracking :=
  save db id (fun _ => true) (.finished record)

def getProposed : Option Proposed :=
  (db.lookup id).bind fun
    | .proposed record => some record
    | _                => none

def getPaid : Option Paid :=
  (db.lookup id).bind fun
    | .paid record => some record
    | _            => none

def getProvisioned : Option Provisioned :=
  (db.lookup id).bind fun
    | .provisioned record => some record
    | _                   => none

def getFinished : Option Finished :=
  (db.lookup id).bind fun
    | .finished record => some record
    | _                => none

-- The name under which the function can be removed from the backend.
def getRemovable : Option String :=
  (db.lookup id).bind fun
    | .live record        => some record.functionName
    | .provisioned record => some record.functionName
    | _                   => none

def getFinishableSla : Option Sla :=
  (db.lookup id).bind fun
    | .live record        => some record.sla
    | .paid record        => some record.sla
    | .provisioned record => some record.sla
    | _                   => none

-- The record is only used through `to_finished`.
def getFinishable : Option Finished :=
  (db.lookup id).bind fun
    | .paid record        => some (States.paid record).toFinished
    | .provisioned record => some (States.provisioned record).toFinished
    | .live record        => some (States.live record).toFinished
    | _                   => none

variable {db id} {x : SlaId} {allowed : Phase → Bool} {record : States}

theorem lookup_insert (record : Proposed) :
    Finmap.lookup x (insert db record) = if x = record.sla.id then some (.proposed record) else db.lookup x :=
  Map.lookup_insert_eq ..

theorem lookup_save :
    Finmap.lookup x (save db id allowed record) =
      if x = id ∧ (db.lookup id).any (allowed ·.phase) then some record else db.lookup x := by
  simp only [save]
  split
  case h_1 hl => simp [hl]
  case h_2 previous hl =>
    split
    case isTrue h  => simp [Map.lookup_insert_eq, hl, h]
    case isFalse h => simp [hl, h]

theorem lookup_savePaid {proposal : Proposed} {paid : Paid} (h : db.lookup id = some (.proposed proposal)) :
    Finmap.lookup x (savePaid db id paid) = if x = id then some (.paid paid) else db.lookup x := by
  simp [savePaid, lookup_save, h, States.phase]

theorem getProposed_eq_some {record : Proposed} :
    getProposed db id = some record ↔ db.lookup id = some (.proposed record) := by
  simp only [getProposed, Option.bind_eq_some_iff]
  constructor
  · intro ⟨r, hl, hr⟩
    cases r <;> simp_all
  · exact fun h => ⟨_, h, rfl⟩

theorem getPaid_eq_some {record : Paid} :
    getPaid db id = some record ↔ db.lookup id = some (.paid record) := by
  simp only [getPaid, Option.bind_eq_some_iff]
  constructor
  · intro ⟨r, hl, hr⟩
    cases r <;> simp_all
  · exact fun h => ⟨_, h, rfl⟩

theorem getProvisioned_eq_some {record : Provisioned} :
    getProvisioned db id = some record ↔ db.lookup id = some (.provisioned record) := by
  simp only [getProvisioned, Option.bind_eq_some_iff]
  constructor
  · intro ⟨r, hl, hr⟩
    cases r <;> simp_all
  · exact fun h => ⟨_, h, rfl⟩

theorem getFinished_eq_some {record : Finished} :
    getFinished db id = some record ↔ db.lookup id = some (.finished record) := by
  simp only [getFinished, Option.bind_eq_some_iff]
  constructor
  · intro ⟨r, hl, hr⟩
    cases r <;> simp_all
  · exact fun h => ⟨_, h, rfl⟩

theorem getFinishable_eq_some {record : Finished} :
    getFinishable db id = some record ↔ ∃ r, db.lookup id = some r ∧ r.Active ∧ r.toFinished = record := by
  simp only [getFinishable, Option.bind_eq_some_iff]
  refine exists_congr fun r => and_congr_right fun _ => ?_
  cases r <;> simp [States.Active]

theorem getFinishableSla_eq_some {sla : Sla} :
    getFinishableSla db id = some sla ↔ ∃ r, db.lookup id = some r ∧ r.Active ∧ r.sla = sla := by
  simp only [getFinishableSla, Option.bind_eq_some_iff]
  refine exists_congr fun r => and_congr_right fun _ => ?_
  cases r <;> simp [States.Active, States.sla]

end FunctionTracking
end Fog
