/-
GIDs and the choice of one (`find_roce_v2_gid` of `rdma_verbs_connect.c`).

A port's GID table is a list of what `ibv_query_gid_ex` answers for each
index: an entry, or nothing where the call fails.
-/
import Mathlib.Data.Fintype.Basic

namespace RdmaInfra.Verbs

-- Named, so that the positions of a GID are the same terms in every module.
instance gidNeZero : @NeZero Nat Zero.ofOfNat0 16 := ⟨by decide⟩

/-- `union ibv_gid`. -/
structure Gid where
  raw : Fin 16 → UInt8
  deriving DecidableEq

inductive GidType
  | ib
  | roceV1
  | roceV2
  deriving DecidableEq, Repr

structure GidEntry where
  gid : Gid
  gidType : GidType
  deriving DecidableEq

abbrev GidTable := List (Option GidEntry)

/-- The GID at an index, as `ibv_query_gid` reads it. -/
def GidTable.gid? (table : GidTable) (i : Int) : Option Gid :=
  if i < 0 then none else (table[i.toNat]?.join).map GidEntry.gid

/-- `::ffff:a.b.c.d`. -/
def gidIsIpv4Mapped (g : Gid) : Bool :=
  (List.ofFn g.raw).take 12 = [0, 0, 0, 0, 0, 0, 0, 0, 0, 0, 0xff, 0xff]

def gidIsLinkLocal (g : Gid) : Bool := g.raw 0 = 0xfe ∧ g.raw 1 &&& 0xc0 = 0x80

/-- The loop from index `i` on, with its two fallbacks (`-1` where unset). -/
def findRoceV2GidFrom : GidTable → Nat → Int → Int → Int
  | [], _, routable, linkLocal => if routable ≥ 0 then routable else linkLocal
  | none :: t, i, routable, linkLocal => findRoceV2GidFrom t (i + 1) routable linkLocal
  | some e :: t, i, routable, linkLocal =>
    if e.gidType ≠ .roceV2 then findRoceV2GidFrom t (i + 1) routable linkLocal
    else if gidIsIpv4Mapped e.gid then i
    else if gidIsLinkLocal e.gid then
      findRoceV2GidFrom t (i + 1) routable (if linkLocal < 0 then i else linkLocal)
    else findRoceV2GidFrom t (i + 1) (if routable < 0 then i else routable) linkLocal

def findRoceV2Gid (table : GidTable) : Int := findRoceV2GidFrom table 0 (-1) (-1)

end RdmaInfra.Verbs
