import CausalTrace.Spec.Id
import CausalTrace.Table
import CausalTrace.Value

/-!
# Baggage

Baggage travels with a request and holds bags of rows. A bag is a list of
entries in two generations: a pack writes ACTIVE entries, and before a branch of
the request gets its copy the ACTIVE entries become ARCHIVE. An entry is never
changed once it is written, so two branches are merged by uniting their entries.
ACTIVE entries are never shared between branches.
-/

namespace CausalTrace

/-- The rows of one pack. -/
structure Entry where
  /-- One more than the largest clock the pack could see in its bag. It is kept and sent in
  64 bits. -/
  clock : Nat
  /-- The identity of the entry, drawn when it is written. -/
  version : UInt64
  rows : List Row
deriving DecidableEq

namespace Entry

/-- Whether `a` comes strictly before `b`: by clock, then by version. -/
def before (a b : Entry) : Bool :=
  decide (a.clock < b.clock) || (a.clock == b.clock && decide (a.version < b.version))

/-- Puts an entry before the first entry that it does not come after. -/
def place (e : Entry) : List Entry → List Entry
  | [] => [e]
  | f :: fs => if f.before e then f :: place e fs else e :: f :: fs

/-- The entries in order; entries of equal rank keep theirs. -/
def sort (es : List Entry) : List Entry := es.foldr place []

/-- The first entry of each version, leaving out the versions given. -/
def distinct (seen : List UInt64) : List Entry → List Entry
  | [] => []
  | e :: es =>
      if seen.contains e.version then distinct seen es
      else e :: distinct (e.version :: seen) es

end Entry

/-- The bags of one generation. -/
abbrev Generation := Table BagId (List Entry)

namespace Generation

/-- One entry per version in each bag, those of the given versions left out,
all in order; a bag without entries is none. -/
def normalize (without : List UInt64) (g : Generation) : Generation :=
  (g.map fun p => (p.1, Entry.sort (Entry.distinct without p.2))).filter (!·.2.isEmpty)

def versions (g : Generation) : List UInt64 := g.flatMap fun p => p.2.map (·.version)

end Generation

structure Baggage where
  /-- Written since the last split. -/
  active : Generation
  /-- Inherited from before the last split. -/
  archive : Generation
deriving DecidableEq

namespace Baggage

def empty : Baggage := ⟨[], []⟩

/-- No bag holds an entry. -/
def isEmpty (b : Baggage) : Bool := b.active.isEmpty && b.archive.isEmpty

/-- The bags with an entry, ascending. -/
def bagIds (b : Baggage) : Ascending BagId := Ascending.ofList (b.active.keys ++ b.archive.keys)

def activeEntries (b : Baggage) (id : BagId) : List Entry := b.active.listed id

def archivedEntries (b : Baggage) (id : BagId) : List Entry := b.archive.listed id

/-- All entries of a bag, archived ones first. -/
def entries (b : Baggage) (id : BagId) : List Entry := b.archivedEntries id ++ b.activeEntries id

/-! ## Writing entries -/

/-- The clock of the next entry of a bag, whose clocks are below `2 ^ 64 - 1`: from the
largest number of 64 bits there is no counting on, and only baggage from elsewhere could
have it. -/
def nextClock (b : Baggage) (id : BagId) : Nat :=
  (b.entries id).foldl (fun c e => max c e.clock) 0 + 1

/-- The next entry of a bag. -/
def nextEntry (b : Baggage) (id : BagId) (version : UInt64) (rows : List Row) : Entry :=
  ⟨b.nextClock id, version, rows⟩

/-- Adds an ACTIVE entry. -/
def push (b : Baggage) (id : BagId) (version : UInt64) (rows : List Row) : Baggage :=
  { b with active := b.active.append id [b.nextEntry id version rows] }

/-- Puts one entry in place of the ACTIVE entries of a bag. -/
def replaceActive (b : Baggage) (id : BagId) (version : UInt64) (rows : List Row) : Baggage :=
  { b with active := b.active.insert id [b.nextEntry id version rows] }

/-- Puts one ACTIVE entry in place of all entries of a bag. -/
def supersede (b : Baggage) (id : BagId) (version : UInt64) (rows : List Row) : Baggage :=
  ⟨b.active.insert id [b.nextEntry id version rows], b.archive.erase id⟩

/-! ## Branching -/

/-- Makes every ACTIVE entry an ARCHIVE one. -/
def archiveActive (b : Baggage) : Baggage :=
  ⟨[], Generation.normalize [] (b.archive.appendAll b.active)⟩

/-- What both branches hold after a fork. -/
def split (b : Baggage) : Baggage := b.archiveActive

/-- The baggage of these bags: every entry once, an archived one never ACTIVE. -/
def gather (active archive : Generation) : Baggage :=
  let archive := Generation.normalize [] archive
  ⟨Generation.normalize (Generation.versions archive) active, archive⟩

/-- What a request holds after the branch that holds `c` came back. -/
def join (b c : Baggage) : Baggage :=
  gather (b.active.appendAll c.active) (b.archive.appendAll c.archive)

end Baggage

end CausalTrace
