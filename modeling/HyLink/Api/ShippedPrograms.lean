import HyLink.Api.IrLoader
import HyLink.Executor.Collectives

/-!
# The shipped programs

The documents that the CUDA library ships for two ranks, and the butterfly AllReduce for four ranks
on two NUMA nodes, with what each of them is for and an order of its lines.  Most of them are not in
an order as they stand: a rank fetches from the host what a rank further down puts there.

* `Shipped.Correct` — a loaded program computes its collective, in the order given.
* `shipped_correct` — all of them do, whichever rank loads them.
* `shipped_computes` — so every finished run of a shipped program leaves its collective.
* `allreduce_ranks_agree` — and all ranks end with the same bytes, for any reduction.
-/

namespace HyLink
namespace Api
namespace ShippedPrograms

open Ir Compiler Executor IrLoader IrSelection

/-! ## Documents -/

def instruction (attributes : List (String × String)) : Element := .mk "instruction" attributes []

def rank (id : String) (instructions : List Element) : Element :=
  .mk "rank" [("id", id)] instructions

def irProgram (attributes : List (String × String)) (ranks : List Element) : List Element :=
  [.mk "ir_program" attributes ranks]

/-- `allreduce_00.xml`. -/
def allreduce_00 : List Element :=
  irProgram [("name", "allreduce"), ("nranks", "2"), ("topology", "1numa_2gpu_per_numa"),
      ("variant", "relay_ring"), ("nnodes", "1")] [
    rank "0" [
      instruction [("op", "D2H"), ("src_buf", "input"), ("src_chunk", "1"), ("dst_chunk", "0"),
        ("dst_numa", "0")],
      instruction [("op", "D2D"), ("src_buf", "input"), ("src_chunk", "0"),
        ("dst_buf", "internal"), ("dst_chunk", "0")],
      instruction [("op", "H2D"), ("src_chunk", "1"), ("src_numa", "0"), ("dst_buf", "internal"),
        ("dst_chunk", "1")],
      instruction [("op", "D2DReduce"), ("src_buf", "internal"), ("src_chunk", "1"),
        ("dst_buf", "internal"), ("dst_chunk", "0")],
      instruction [("op", "D2H"), ("src_buf", "internal"), ("src_chunk", "0"), ("dst_chunk", "2"),
        ("dst_numa", "0")],
      instruction [("op", "D2D"), ("src_buf", "internal"), ("src_chunk", "0"),
        ("dst_buf", "output"), ("dst_chunk", "0")],
      instruction [("op", "H2D"), ("src_chunk", "3"), ("src_numa", "0"), ("dst_buf", "output"),
        ("dst_chunk", "1")]],
    rank "1" [
      instruction [("op", "D2H"), ("src_buf", "input"), ("src_chunk", "0"), ("dst_chunk", "1"),
        ("dst_numa", "0")],
      instruction [("op", "D2D"), ("src_buf", "input"), ("src_chunk", "1"),
        ("dst_buf", "internal"), ("dst_chunk", "1")],
      instruction [("op", "H2D"), ("src_chunk", "0"), ("src_numa", "0"), ("dst_buf", "internal"),
        ("dst_chunk", "0")],
      instruction [("op", "D2DReduce"), ("src_buf", "internal"), ("src_chunk", "0"),
        ("dst_buf", "internal"), ("dst_chunk", "1")],
      instruction [("op", "D2H"), ("src_buf", "internal"), ("src_chunk", "1"), ("dst_chunk", "3"),
        ("dst_numa", "0")],
      instruction [("op", "D2D"), ("src_buf", "internal"), ("src_chunk", "1"),
        ("dst_buf", "output"), ("dst_chunk", "1")],
      instruction [("op", "H2D"), ("src_chunk", "2"), ("src_numa", "0"), ("dst_buf", "output"),
        ("dst_chunk", "0")]]]

/-- `allreduce_01.xml`. -/
def allreduce_01 : List Element :=
  irProgram [("name", "allreduce"), ("nranks", "2"), ("topology", "2numa_1gpu_per_numa"),
      ("nnodes", "1")] [
    rank "0" [
      instruction [("op", "D2H"), ("src_chunk", "1"), ("dst_chunk", "1"), ("dst_numa", "1")],
      instruction [("op", "D2D"), ("src_rank", "0"), ("src_buf", "input"), ("src_chunk", "0"),
        ("dst_buf", "internal"), ("dst_chunk", "2")],
      instruction [("op", "H2D"), ("src_chunk", "2"), ("src_numa", "0"), ("dst_buf", "internal"),
        ("dst_chunk", "3")],
      instruction [("op", "D2DReduce"), ("src_buf", "internal"), ("src_chunk", "3"),
        ("dst_buf", "internal"), ("dst_chunk", "2")],
      instruction [("op", "D2H"), ("src_buf", "internal"), ("src_chunk", "2"), ("dst_chunk", "4"),
        ("dst_numa", "0")],
      instruction [("op", "D2D"), ("src_buf", "internal"), ("src_chunk", "2"),
        ("dst_buf", "output"), ("dst_chunk", "0")],
      instruction [("op", "H2D"), ("src_chunk", "5"), ("src_numa", "1"), ("dst_buf", "output"),
        ("dst_chunk", "1")]],
    rank "1" [
      instruction [("op", "D2H"), ("src_chunk", "0"), ("dst_chunk", "2"), ("dst_numa", "0")],
      instruction [("op", "D2D"), ("src_rank", "1"), ("src_buf", "input"), ("src_chunk", "1"),
        ("dst_buf", "internal"), ("dst_chunk", "2")],
      instruction [("op", "H2D"), ("src_chunk", "1"), ("src_numa", "1"), ("dst_buf", "internal"),
        ("dst_chunk", "3")],
      instruction [("op", "D2DReduce"), ("src_buf", "internal"), ("src_chunk", "3"),
        ("dst_buf", "internal"), ("dst_chunk", "2")],
      instruction [("op", "D2H"), ("src_buf", "internal"), ("src_chunk", "2"), ("dst_chunk", "5"),
        ("dst_numa", "1")],
      instruction [("op", "H2D"), ("src_chunk", "4"), ("src_numa", "0"), ("dst_buf", "output"),
        ("dst_chunk", "0")],
      instruction [("op", "D2D"), ("src_buf", "internal"), ("src_chunk", "2"),
        ("dst_buf", "output"), ("dst_chunk", "1")]]]

/-- `allreduce_00_direct.xml`. -/
def allreduce_00_direct : List Element :=
  irProgram [("name", "allreduce"), ("nranks", "2"), ("topology", "1numa_2gpu_per_numa"),
      ("variant", "direct"), ("nnodes", "1")] [
    rank "0" [
      instruction [("op", "D2D"), ("src_rank", "0"), ("src_buf", "input"), ("src_chunk", "0"),
        ("dst_buf", "internal"), ("dst_chunk", "2")],
      instruction [("op", "D2D"), ("src_rank", "1"), ("src_buf", "input"), ("src_chunk", "0"),
        ("dst_buf", "internal"), ("dst_chunk", "3")],
      instruction [("op", "D2DReduce"), ("src_buf", "internal"), ("src_chunk", "3"),
        ("dst_buf", "internal"), ("dst_chunk", "2")],
      instruction [("op", "D2D"), ("src_buf", "internal"), ("src_chunk", "2"),
        ("dst_buf", "output"), ("dst_chunk", "0")],
      instruction [("op", "D2D"), ("src_rank", "0"), ("src_buf", "input"), ("src_chunk", "1"),
        ("dst_buf", "internal"), ("dst_chunk", "4")],
      instruction [("op", "D2D"), ("src_rank", "1"), ("src_buf", "input"), ("src_chunk", "1"),
        ("dst_buf", "internal"), ("dst_chunk", "5")],
      instruction [("op", "D2DReduce"), ("src_buf", "internal"), ("src_chunk", "5"),
        ("dst_buf", "internal"), ("dst_chunk", "4")],
      instruction [("op", "D2D"), ("src_buf", "internal"), ("src_chunk", "4"),
        ("dst_buf", "output"), ("dst_chunk", "1")]],
    rank "1" [
      instruction [("op", "D2D"), ("src_rank", "1"), ("src_buf", "input"), ("src_chunk", "0"),
        ("dst_buf", "internal"), ("dst_chunk", "2")],
      instruction [("op", "D2D"), ("src_rank", "0"), ("src_buf", "input"), ("src_chunk", "0"),
        ("dst_buf", "internal"), ("dst_chunk", "3")],
      instruction [("op", "D2DReduce"), ("src_buf", "internal"), ("src_chunk", "3"),
        ("dst_buf", "internal"), ("dst_chunk", "2")],
      instruction [("op", "D2D"), ("src_buf", "internal"), ("src_chunk", "2"),
        ("dst_buf", "output"), ("dst_chunk", "0")],
      instruction [("op", "D2D"), ("src_rank", "1"), ("src_buf", "input"), ("src_chunk", "1"),
        ("dst_buf", "internal"), ("dst_chunk", "4")],
      instruction [("op", "D2D"), ("src_rank", "0"), ("src_buf", "input"), ("src_chunk", "1"),
        ("dst_buf", "internal"), ("dst_chunk", "5")],
      instruction [("op", "D2DReduce"), ("src_buf", "internal"), ("src_chunk", "5"),
        ("dst_buf", "internal"), ("dst_chunk", "4")],
      instruction [("op", "D2D"), ("src_buf", "internal"), ("src_chunk", "4"),
        ("dst_buf", "output"), ("dst_chunk", "1")]]]

/-- `allreduce_0011.xml`. -/
def allreduce_0011 : List Element :=
  irProgram [("name", "allreduce"), ("nranks", "4"), ("topology", "2numa_2gpu_per_numa"),
      ("nnodes", "1")] [
    rank "0" [
      instruction [("op", "D2H"), ("src_chunk", "1"), ("dst_chunk", "1"), ("dst_numa", "0")],
      instruction [("op", "D2H"), ("src_chunk", "3"), ("dst_chunk", "3"), ("dst_numa", "0")],
      instruction [("op", "D2D"), ("src_rank", "0"), ("src_buf", "input"), ("src_chunk", "0"),
        ("dst_buf", "internal"), ("dst_chunk", "4")],
      instruction [("op", "H2D"), ("src_chunk", "4"), ("src_numa", "0"), ("dst_buf", "internal"),
        ("dst_chunk", "6")],
      instruction [("op", "D2DReduce"), ("src_buf", "internal"), ("src_chunk", "6"),
        ("dst_buf", "internal"), ("dst_chunk", "4")],
      instruction [("op", "D2D"), ("src_rank", "0"), ("src_buf", "input"), ("src_chunk", "2"),
        ("dst_buf", "internal"), ("dst_chunk", "5")],
      instruction [("op", "H2D"), ("src_chunk", "6"), ("src_numa", "0"), ("dst_buf", "internal"),
        ("dst_chunk", "6")],
      instruction [("op", "D2DReduce"), ("src_buf", "internal"), ("src_chunk", "6"),
        ("dst_buf", "internal"), ("dst_chunk", "5")],
      instruction [("op", "D2H"), ("src_buf", "internal"), ("src_chunk", "5"), ("dst_chunk", "2"),
        ("dst_numa", "1")],
      instruction [("op", "D2D"), ("src_buf", "internal"), ("src_chunk", "4"),
        ("dst_buf", "internal"), ("dst_chunk", "7")],
      instruction [("op", "H2D"), ("src_chunk", "8"), ("src_numa", "0"), ("dst_buf", "internal"),
        ("dst_chunk", "8")],
      instruction [("op", "D2DReduce"), ("src_buf", "internal"), ("src_chunk", "8"),
        ("dst_buf", "internal"), ("dst_chunk", "7")],
      instruction [("op", "D2H"), ("src_buf", "internal"), ("src_chunk", "7"),
        ("dst_chunk", "16"), ("dst_numa", "0")],
      instruction [("op", "D2H"), ("src_buf", "internal"), ("src_chunk", "7"),
        ("dst_chunk", "16"), ("dst_numa", "1")],
      instruction [("op", "D2D"), ("src_buf", "internal"), ("src_chunk", "7"),
        ("dst_buf", "output"), ("dst_chunk", "0")],
      instruction [("op", "H2D"), ("src_chunk", "17"), ("src_numa", "0"), ("dst_buf", "output"),
        ("dst_chunk", "1")],
      instruction [("op", "H2D"), ("src_chunk", "18"), ("src_numa", "0"), ("dst_buf", "output"),
        ("dst_chunk", "2")],
      instruction [("op", "H2D"), ("src_chunk", "19"), ("src_numa", "0"), ("dst_buf", "output"),
        ("dst_chunk", "3")]],
    rank "1" [
      instruction [("op", "D2H"), ("src_chunk", "0"), ("dst_chunk", "4"), ("dst_numa", "0")],
      instruction [("op", "D2H"), ("src_chunk", "2"), ("dst_chunk", "6"), ("dst_numa", "0")],
      instruction [("op", "D2D"), ("src_rank", "1"), ("src_buf", "input"), ("src_chunk", "1"),
        ("dst_buf", "internal"), ("dst_chunk", "4")],
      instruction [("op", "H2D"), ("src_chunk", "1"), ("src_numa", "0"), ("dst_buf", "internal"),
        ("dst_chunk", "6")],
      instruction [("op", "D2DReduce"), ("src_buf", "internal"), ("src_chunk", "6"),
        ("dst_buf", "internal"), ("dst_chunk", "4")],
      instruction [("op", "D2D"), ("src_rank", "1"), ("src_buf", "input"), ("src_chunk", "3"),
        ("dst_buf", "internal"), ("dst_chunk", "5")],
      instruction [("op", "H2D"), ("src_chunk", "3"), ("src_numa", "0"), ("dst_buf", "internal"),
        ("dst_chunk", "6")],
      instruction [("op", "D2DReduce"), ("src_buf", "internal"), ("src_chunk", "6"),
        ("dst_buf", "internal"), ("dst_chunk", "5")],
      instruction [("op", "D2H"), ("src_buf", "internal"), ("src_chunk", "5"), ("dst_chunk", "7"),
        ("dst_numa", "1")],
      instruction [("op", "D2D"), ("src_buf", "internal"), ("src_chunk", "4"),
        ("dst_buf", "internal"), ("dst_chunk", "7")],
      instruction [("op", "H2D"), ("src_chunk", "13"), ("src_numa", "0"), ("dst_buf", "internal"),
        ("dst_chunk", "8")],
      instruction [("op", "D2DReduce"), ("src_buf", "internal"), ("src_chunk", "8"),
        ("dst_buf", "internal"), ("dst_chunk", "7")],
      instruction [("op", "D2H"), ("src_buf", "internal"), ("src_chunk", "7"),
        ("dst_chunk", "17"), ("dst_numa", "0")],
      instruction [("op", "D2H"), ("src_buf", "internal"), ("src_chunk", "7"),
        ("dst_chunk", "17"), ("dst_numa", "1")],
      instruction [("op", "H2D"), ("src_chunk", "16"), ("src_numa", "0"), ("dst_buf", "output"),
        ("dst_chunk", "0")],
      instruction [("op", "D2D"), ("src_buf", "internal"), ("src_chunk", "7"),
        ("dst_buf", "output"), ("dst_chunk", "1")],
      instruction [("op", "H2D"), ("src_chunk", "18"), ("src_numa", "0"), ("dst_buf", "output"),
        ("dst_chunk", "2")],
      instruction [("op", "H2D"), ("src_chunk", "19"), ("src_numa", "0"), ("dst_buf", "output"),
        ("dst_chunk", "3")]],
    rank "2" [
      instruction [("op", "D2H"), ("src_chunk", "1"), ("dst_chunk", "9"), ("dst_numa", "1")],
      instruction [("op", "D2H"), ("src_chunk", "3"), ("dst_chunk", "11"), ("dst_numa", "1")],
      instruction [("op", "D2D"), ("src_rank", "2"), ("src_buf", "input"), ("src_chunk", "0"),
        ("dst_buf", "internal"), ("dst_chunk", "4")],
      instruction [("op", "H2D"), ("src_chunk", "12"), ("src_numa", "1"), ("dst_buf", "internal"),
        ("dst_chunk", "6")],
      instruction [("op", "D2DReduce"), ("src_buf", "internal"), ("src_chunk", "6"),
        ("dst_buf", "internal"), ("dst_chunk", "4")],
      instruction [("op", "D2D"), ("src_rank", "2"), ("src_buf", "input"), ("src_chunk", "2"),
        ("dst_buf", "internal"), ("dst_chunk", "5")],
      instruction [("op", "H2D"), ("src_chunk", "14"), ("src_numa", "1"), ("dst_buf", "internal"),
        ("dst_chunk", "6")],
      instruction [("op", "D2DReduce"), ("src_buf", "internal"), ("src_chunk", "6"),
        ("dst_buf", "internal"), ("dst_chunk", "5")],
      instruction [("op", "D2H"), ("src_buf", "internal"), ("src_chunk", "4"), ("dst_chunk", "8"),
        ("dst_numa", "0")],
      instruction [("op", "D2D"), ("src_buf", "internal"), ("src_chunk", "5"),
        ("dst_buf", "internal"), ("dst_chunk", "7")],
      instruction [("op", "H2D"), ("src_chunk", "2"), ("src_numa", "1"), ("dst_buf", "internal"),
        ("dst_chunk", "8")],
      instruction [("op", "D2DReduce"), ("src_buf", "internal"), ("src_chunk", "8"),
        ("dst_buf", "internal"), ("dst_chunk", "7")],
      instruction [("op", "D2H"), ("src_buf", "internal"), ("src_chunk", "7"),
        ("dst_chunk", "18"), ("dst_numa", "1")],
      instruction [("op", "D2H"), ("src_buf", "internal"), ("src_chunk", "7"),
        ("dst_chunk", "18"), ("dst_numa", "0")],
      instruction [("op", "H2D"), ("src_chunk", "16"), ("src_numa", "1"), ("dst_buf", "output"),
        ("dst_chunk", "0")],
      instruction [("op", "H2D"), ("src_chunk", "17"), ("src_numa", "1"), ("dst_buf", "output"),
        ("dst_chunk", "1")],
      instruction [("op", "D2D"), ("src_buf", "internal"), ("src_chunk", "7"),
        ("dst_buf", "output"), ("dst_chunk", "2")],
      instruction [("op", "H2D"), ("src_chunk", "19"), ("src_numa", "1"), ("dst_buf", "output"),
        ("dst_chunk", "3")]],
    rank "3" [
      instruction [("op", "D2H"), ("src_chunk", "0"), ("dst_chunk", "12"), ("dst_numa", "1")],
      instruction [("op", "D2H"), ("src_chunk", "2"), ("dst_chunk", "14"), ("dst_numa", "1")],
      instruction [("op", "D2D"), ("src_rank", "3"), ("src_buf", "input"), ("src_chunk", "1"),
        ("dst_buf", "internal"), ("dst_chunk", "4")],
      instruction [("op", "H2D"), ("src_chunk", "9"), ("src_numa", "1"), ("dst_buf", "internal"),
        ("dst_chunk", "6")],
      instruction [("op", "D2DReduce"), ("src_buf", "internal"), ("src_chunk", "6"),
        ("dst_buf", "internal"), ("dst_chunk", "4")],
      instruction [("op", "D2D"), ("src_rank", "3"), ("src_buf", "input"), ("src_chunk", "3"),
        ("dst_buf", "internal"), ("dst_chunk", "5")],
      instruction [("op", "H2D"), ("src_chunk", "11"), ("src_numa", "1"), ("dst_buf", "internal"),
        ("dst_chunk", "6")],
      instruction [("op", "D2DReduce"), ("src_buf", "internal"), ("src_chunk", "6"),
        ("dst_buf", "internal"), ("dst_chunk", "5")],
      instruction [("op", "D2H"), ("src_buf", "internal"), ("src_chunk", "4"),
        ("dst_chunk", "13"), ("dst_numa", "0")],
      instruction [("op", "D2D"), ("src_buf", "internal"), ("src_chunk", "5"),
        ("dst_buf", "internal"), ("dst_chunk", "7")],
      instruction [("op", "H2D"), ("src_chunk", "7"), ("src_numa", "1"), ("dst_buf", "internal"),
        ("dst_chunk", "8")],
      instruction [("op", "D2DReduce"), ("src_buf", "internal"), ("src_chunk", "8"),
        ("dst_buf", "internal"), ("dst_chunk", "7")],
      instruction [("op", "D2H"), ("src_buf", "internal"), ("src_chunk", "7"),
        ("dst_chunk", "19"), ("dst_numa", "1")],
      instruction [("op", "D2H"), ("src_buf", "internal"), ("src_chunk", "7"),
        ("dst_chunk", "19"), ("dst_numa", "0")],
      instruction [("op", "H2D"), ("src_chunk", "16"), ("src_numa", "1"), ("dst_buf", "output"),
        ("dst_chunk", "0")],
      instruction [("op", "H2D"), ("src_chunk", "17"), ("src_numa", "1"), ("dst_buf", "output"),
        ("dst_chunk", "1")],
      instruction [("op", "H2D"), ("src_chunk", "18"), ("src_numa", "1"), ("dst_buf", "output"),
        ("dst_chunk", "2")],
      instruction [("op", "D2D"), ("src_buf", "internal"), ("src_chunk", "7"),
        ("dst_buf", "output"), ("dst_chunk", "3")]]]

/-- `reducescatter_00.xml`. -/
def reducescatter_00 : List Element :=
  irProgram [("name", "reducescatter"), ("nranks", "2"), ("topology", "1numa_2gpu_per_numa"),
      ("nnodes", "1")] [
    rank "0" [
      instruction [("op", "D2H"), ("src_chunk", "1"), ("dst_chunk", "1"), ("dst_numa", "0")],
      instruction [("op", "D2D"), ("src_rank", "0"), ("src_buf", "input"), ("src_chunk", "0"),
        ("dst_buf", "output"), ("dst_chunk", "0")],
      instruction [("op", "H2D"), ("src_chunk", "2"), ("dst_buf", "internal"), ("dst_chunk", "0"),
        ("src_numa", "0")],
      instruction [("op", "D2DReduce"), ("src_buf", "internal"), ("src_chunk", "0"),
        ("dst_buf", "output"), ("dst_chunk", "0")]],
    rank "1" [
      instruction [("op", "D2H"), ("src_chunk", "0"), ("dst_chunk", "2"), ("dst_numa", "0")],
      instruction [("op", "D2D"), ("src_rank", "1"), ("src_buf", "input"), ("src_chunk", "1"),
        ("dst_buf", "output"), ("dst_chunk", "0")],
      instruction [("op", "H2D"), ("src_chunk", "1"), ("dst_buf", "internal"), ("dst_chunk", "0"),
        ("src_numa", "0")],
      instruction [("op", "D2DReduce"), ("src_buf", "internal"), ("src_chunk", "0"),
        ("dst_buf", "output"), ("dst_chunk", "0")]]]

/-- `reducescatter_01.xml`. -/
def reducescatter_01 : List Element :=
  irProgram [("name", "reducescatter"), ("nranks", "2"), ("topology", "2numa_1gpu_per_numa"),
      ("nnodes", "1")] [
    rank "0" [
      instruction [("op", "D2H"), ("src_chunk", "1"), ("dst_chunk", "1"), ("dst_numa", "1")],
      instruction [("op", "D2D"), ("src_rank", "0"), ("src_buf", "input"), ("src_chunk", "0"),
        ("dst_buf", "output"), ("dst_chunk", "0")],
      instruction [("op", "H2D"), ("src_chunk", "2"), ("dst_buf", "internal"), ("dst_chunk", "0"),
        ("src_numa", "0")],
      instruction [("op", "D2DReduce"), ("src_buf", "internal"), ("src_chunk", "0"),
        ("dst_buf", "output"), ("dst_chunk", "0")]],
    rank "1" [
      instruction [("op", "D2H"), ("src_chunk", "0"), ("dst_chunk", "2"), ("dst_numa", "0")],
      instruction [("op", "D2D"), ("src_rank", "1"), ("src_buf", "input"), ("src_chunk", "1"),
        ("dst_buf", "output"), ("dst_chunk", "0")],
      instruction [("op", "H2D"), ("src_chunk", "1"), ("dst_buf", "internal"), ("dst_chunk", "0"),
        ("src_numa", "1")],
      instruction [("op", "D2DReduce"), ("src_buf", "internal"), ("src_chunk", "0"),
        ("dst_buf", "output"), ("dst_chunk", "0")]]]

/-- `reducescatter_00_direct.xml`. -/
def reducescatter_00_direct : List Element :=
  irProgram [("name", "reducescatter"), ("nranks", "2"), ("topology", "1numa_2gpu_per_numa"),
      ("variant", "direct"), ("nnodes", "1")] [
    rank "0" [
      instruction [("op", "D2D"), ("src_rank", "0"), ("src_buf", "input"), ("src_chunk", "0"),
        ("dst_buf", "output"), ("dst_chunk", "0")],
      instruction [("op", "D2D"), ("src_rank", "1"), ("src_buf", "input"), ("src_chunk", "0"),
        ("dst_buf", "internal"), ("dst_chunk", "0")],
      instruction [("op", "D2DReduce"), ("src_buf", "internal"), ("src_chunk", "0"),
        ("dst_buf", "output"), ("dst_chunk", "0")]],
    rank "1" [
      instruction [("op", "D2D"), ("src_rank", "1"), ("src_buf", "input"), ("src_chunk", "1"),
        ("dst_buf", "output"), ("dst_chunk", "0")],
      instruction [("op", "D2D"), ("src_rank", "0"), ("src_buf", "input"), ("src_chunk", "1"),
        ("dst_buf", "internal"), ("dst_chunk", "0")],
      instruction [("op", "D2DReduce"), ("src_buf", "internal"), ("src_chunk", "0"),
        ("dst_buf", "output"), ("dst_chunk", "0")]]]

/-- `allgather_00.xml`. -/
def allgather_00 : List Element :=
  irProgram [("name", "allgather"), ("nranks", "2"), ("topology", "1numa_2gpu_per_numa"),
      ("nnodes", "1")] [
    rank "0" [
      instruction [("op", "D2H"), ("src_chunk", "0"), ("dst_chunk", "0"), ("dst_numa", "0")],
      instruction [("op", "D2D"), ("src_chunk", "0"), ("dst_chunk", "0")],
      instruction [("op", "H2D"), ("src_chunk", "1"), ("dst_chunk", "1"), ("src_numa", "0")]],
    rank "1" [
      instruction [("op", "D2H"), ("src_chunk", "0"), ("dst_chunk", "1"), ("dst_numa", "0")],
      instruction [("op", "D2D"), ("src_chunk", "0"), ("dst_chunk", "1")],
      instruction [("op", "H2D"), ("src_chunk", "0"), ("dst_chunk", "0"), ("src_numa", "0")]]]

/-- `allgather_01.xml`. -/
def allgather_01 : List Element :=
  irProgram [("name", "allgather"), ("nranks", "2"), ("topology", "2numa_1gpu_per_numa"),
      ("nnodes", "1")] [
    rank "0" [
      instruction [("op", "D2H"), ("src_chunk", "0"), ("dst_chunk", "0"), ("dst_numa", "0")],
      instruction [("op", "D2D"), ("src_chunk", "0"), ("dst_chunk", "0")],
      instruction [("op", "H2D"), ("src_chunk", "1"), ("dst_chunk", "1"), ("src_numa", "1")]],
    rank "1" [
      instruction [("op", "D2H"), ("src_chunk", "0"), ("dst_chunk", "1"), ("dst_numa", "1")],
      instruction [("op", "D2D"), ("src_chunk", "0"), ("dst_chunk", "1")],
      instruction [("op", "H2D"), ("src_chunk", "0"), ("dst_chunk", "0"), ("src_numa", "0")]]]

/-- `allgather_00_direct.xml`. -/
def allgather_00_direct : List Element :=
  irProgram [("name", "allgather"), ("nranks", "2"), ("topology", "1numa_2gpu_per_numa"),
      ("variant", "direct"), ("nnodes", "1")] [
    rank "0" [
      instruction [("op", "D2D"), ("src_rank", "0"), ("src_buf", "input"), ("src_chunk", "0"),
        ("dst_buf", "output"), ("dst_chunk", "0")],
      instruction [("op", "D2D"), ("src_rank", "1"), ("src_buf", "input"), ("src_chunk", "0"),
        ("dst_buf", "output"), ("dst_chunk", "1")]],
    rank "1" [
      instruction [("op", "D2D"), ("src_rank", "0"), ("src_buf", "input"), ("src_chunk", "0"),
        ("dst_buf", "output"), ("dst_chunk", "0")],
      instruction [("op", "D2D"), ("src_rank", "1"), ("src_buf", "input"), ("src_chunk", "0"),
        ("dst_buf", "output"), ("dst_chunk", "1")]]]

/-- `alltoall_00.xml`. -/
def alltoall_00 : List Element :=
  irProgram [("name", "alltoall"), ("nranks", "2"), ("topology", "1numa_2gpu_per_numa"),
      ("nnodes", "1")] [
    rank "0" [
      instruction [("op", "D2D"), ("src_chunk", "0"), ("dst_chunk", "0")],
      instruction [("op", "D2H"), ("src_chunk", "1"), ("dst_chunk", "0"), ("dst_numa", "0")],
      instruction [("op", "H2D"), ("src_chunk", "1"), ("dst_chunk", "1"), ("src_numa", "0")]],
    rank "1" [
      instruction [("op", "D2D"), ("src_chunk", "1"), ("dst_chunk", "1")],
      instruction [("op", "D2H"), ("src_chunk", "0"), ("dst_chunk", "1"), ("dst_numa", "0")],
      instruction [("op", "H2D"), ("src_chunk", "0"), ("dst_chunk", "0"), ("src_numa", "0")]]]

/-- `alltoall_01.xml`. -/
def alltoall_01 : List Element :=
  irProgram [("name", "alltoall"), ("nranks", "2"), ("topology", "2numa_1gpu_per_numa"),
      ("nnodes", "1")] [
    rank "0" [
      instruction [("op", "D2D"), ("src_chunk", "0"), ("dst_chunk", "0")],
      instruction [("op", "D2H"), ("src_chunk", "1"), ("dst_chunk", "0"), ("dst_numa", "0")],
      instruction [("op", "H2D"), ("src_chunk", "1"), ("dst_chunk", "1"), ("src_numa", "1")]],
    rank "1" [
      instruction [("op", "D2D"), ("src_chunk", "1"), ("dst_chunk", "1")],
      instruction [("op", "D2H"), ("src_chunk", "0"), ("dst_chunk", "1"), ("dst_numa", "1")],
      instruction [("op", "H2D"), ("src_chunk", "0"), ("dst_chunk", "0"), ("src_numa", "0")]]]

/-- `broadcast_root0_00.xml`. -/
def broadcast_root0_00 : List Element :=
  irProgram [("name", "broadcast_root0"), ("nranks", "2"), ("topology", "00"),
      ("variant", "relay"), ("nnodes", "1")] [
    rank "0" [
      instruction [("op", "D2H"), ("src_buf", "input"), ("src_chunk", "0"), ("dst_chunk", "0"),
        ("dst_numa", "0")],
      instruction [("op", "D2D"), ("src_rank", "0"), ("src_buf", "input"), ("src_chunk", "0"),
        ("dst_buf", "output"), ("dst_chunk", "0")]],
    rank "1" [
      instruction [("op", "H2D"), ("src_chunk", "0"), ("src_numa", "0"), ("dst_buf", "output"),
        ("dst_chunk", "0")]]]

/-- `broadcast_root1_00.xml`. -/
def broadcast_root1_00 : List Element :=
  irProgram [("name", "broadcast_root1"), ("nranks", "2"), ("topology", "00"),
      ("variant", "relay"), ("nnodes", "1")] [
    rank "0" [
      instruction [("op", "H2D"), ("src_chunk", "0"), ("src_numa", "0"), ("dst_buf", "output"),
        ("dst_chunk", "0")]],
    rank "1" [
      instruction [("op", "D2H"), ("src_buf", "input"), ("src_chunk", "0"), ("dst_chunk", "0"),
        ("dst_numa", "0")],
      instruction [("op", "D2D"), ("src_rank", "1"), ("src_buf", "input"), ("src_chunk", "0"),
        ("dst_buf", "output"), ("dst_chunk", "0")]]]

/-- `broadcast_root0_01.xml`. -/
def broadcast_root0_01 : List Element :=
  irProgram [("name", "broadcast_root0"), ("nranks", "2"), ("topology", "01"),
      ("variant", "relay"), ("nnodes", "1")] [
    rank "0" [
      instruction [("op", "D2H"), ("src_buf", "input"), ("src_chunk", "0"), ("dst_chunk", "0"),
        ("dst_numa", "1")],
      instruction [("op", "D2D"), ("src_rank", "0"), ("src_buf", "input"), ("src_chunk", "0"),
        ("dst_buf", "output"), ("dst_chunk", "0")]],
    rank "1" [
      instruction [("op", "H2D"), ("src_chunk", "0"), ("src_numa", "1"), ("dst_buf", "output"),
        ("dst_chunk", "0")]]]

/-- `broadcast_root1_01.xml`. -/
def broadcast_root1_01 : List Element :=
  irProgram [("name", "broadcast_root1"), ("nranks", "2"), ("topology", "01"),
      ("variant", "relay"), ("nnodes", "1")] [
    rank "0" [
      instruction [("op", "H2D"), ("src_chunk", "0"), ("src_numa", "0"), ("dst_buf", "output"),
        ("dst_chunk", "0")]],
    rank "1" [
      instruction [("op", "D2H"), ("src_buf", "input"), ("src_chunk", "0"), ("dst_chunk", "0"),
        ("dst_numa", "0")],
      instruction [("op", "D2D"), ("src_rank", "1"), ("src_buf", "input"), ("src_chunk", "0"),
        ("dst_buf", "output"), ("dst_chunk", "0")]]]

/-- `broadcast_root0_00_direct.xml`. -/
def broadcast_root0_00_direct : List Element :=
  irProgram [("name", "broadcast_root0"), ("nranks", "2"), ("topology", "00"),
      ("variant", "direct"), ("nnodes", "1")] [
    rank "0" [
      instruction [("op", "D2D"), ("src_rank", "0"), ("src_buf", "input"), ("src_chunk", "0"),
        ("dst_buf", "output"), ("dst_chunk", "0")]],
    rank "1" [
      instruction [("op", "D2D"), ("src_rank", "0"), ("src_buf", "input"), ("src_chunk", "0"),
        ("dst_buf", "output"), ("dst_chunk", "0")]]]

/-- `broadcast_root1_00_direct.xml`. -/
def broadcast_root1_00_direct : List Element :=
  irProgram [("name", "broadcast_root1"), ("nranks", "2"), ("topology", "00"),
      ("variant", "direct"), ("nnodes", "1")] [
    rank "0" [
      instruction [("op", "D2D"), ("src_rank", "1"), ("src_buf", "input"), ("src_chunk", "0"),
        ("dst_buf", "output"), ("dst_chunk", "0")]],
    rank "1" [
      instruction [("op", "D2D"), ("src_rank", "1"), ("src_buf", "input"), ("src_chunk", "0"),
        ("dst_buf", "output"), ("dst_chunk", "0")]]]

/-- `broadcast_root0_01_direct.xml`. -/
def broadcast_root0_01_direct : List Element :=
  irProgram [("name", "broadcast_root0"), ("nranks", "2"), ("topology", "01"),
      ("variant", "direct"), ("nnodes", "1")] [
    rank "0" [
      instruction [("op", "D2D"), ("src_rank", "0"), ("src_buf", "input"), ("src_chunk", "0"),
        ("dst_buf", "output"), ("dst_chunk", "0")]],
    rank "1" [
      instruction [("op", "D2D"), ("src_rank", "0"), ("src_buf", "input"), ("src_chunk", "0"),
        ("dst_buf", "output"), ("dst_chunk", "0")]]]

/-- `broadcast_root1_01_direct.xml`. -/
def broadcast_root1_01_direct : List Element :=
  irProgram [("name", "broadcast_root1"), ("nranks", "2"), ("topology", "01"),
      ("variant", "direct"), ("nnodes", "1")] [
    rank "0" [
      instruction [("op", "D2D"), ("src_rank", "1"), ("src_buf", "input"), ("src_chunk", "0"),
        ("dst_buf", "output"), ("dst_chunk", "0")]],
    rank "1" [
      instruction [("op", "D2D"), ("src_rank", "1"), ("src_buf", "input"), ("src_chunk", "0"),
        ("dst_buf", "output"), ("dst_chunk", "0")]]]

/-- A shipped document: the NUMA nodes of its ranks, its collective and an order of its lines. -/
structure Shipped where
  document : List Element
  numas : List ℕ
  collective : Collective
  order : List ℕ

/-- The documents for two ranks, and `allreduce_0011.xml`. -/
def shipped : List Shipped := [
  ⟨allreduce_00, [0, 0], .allreduce, [0, 1, 7, 2, 3, 4, 5, 8, 9, 10, 11, 6, 12, 13]⟩,
  ⟨allreduce_01, [0, 1], .allreduce, [0, 1, 7, 2, 3, 4, 5, 8, 9, 10, 11, 6, 12, 13]⟩,
  ⟨allreduce_00_direct, [0, 0], .allreduce, [0, 1, 2, 3, 4, 5, 6, 7, 8, 9, 10, 11, 12, 13, 14, 15]⟩,
  ⟨allreduce_0011, [0, 0, 1, 1], .allreduce, [0, 1, 2, 5, 18, 3, 4, 9, 19, 6, 7, 8, 20, 21, 22,
    23, 24, 25, 26, 27, 36, 37, 38, 41, 46, 54, 39, 40, 44, 10, 11, 12, 13, 14, 32, 50, 55, 42,
    43, 45, 47, 48, 49, 16, 34, 52, 56, 57, 58, 59, 60, 61, 62, 28, 29, 30, 15, 31, 33, 51, 63,
    64, 65, 66, 53, 67, 17, 35, 68, 69, 70, 71]⟩,
  ⟨reducescatter_00, [0, 0], .reducescatter, [0, 1, 4, 2, 3, 5, 6, 7]⟩,
  ⟨reducescatter_01, [0, 1], .reducescatter, [0, 1, 4, 2, 3, 5, 6, 7]⟩,
  ⟨reducescatter_00_direct, [0, 0], .reducescatter, [0, 1, 2, 3, 4, 5]⟩,
  ⟨allgather_00, [0, 0], .allgather, [0, 1, 3, 2, 4, 5]⟩,
  ⟨allgather_01, [0, 1], .allgather, [0, 1, 3, 2, 4, 5]⟩,
  ⟨allgather_00_direct, [0, 0], .allgather, [0, 1, 2, 3]⟩,
  ⟨alltoall_00, [0, 0], .alltoall, [0, 1, 3, 4, 2, 5]⟩,
  ⟨alltoall_01, [0, 1], .alltoall, [0, 1, 3, 4, 2, 5]⟩,
  ⟨broadcast_root0_00, [0, 0], .broadcastRoot 0, [0, 1, 2]⟩,
  ⟨broadcast_root1_00, [0, 0], .broadcastRoot 1, [1, 0, 2]⟩,
  ⟨broadcast_root0_01, [0, 1], .broadcastRoot 0, [0, 1, 2]⟩,
  ⟨broadcast_root1_01, [0, 1], .broadcastRoot 1, [1, 0, 2]⟩,
  ⟨broadcast_root0_00_direct, [0, 0], .broadcastRoot 0, [0, 1]⟩,
  ⟨broadcast_root1_00_direct, [0, 0], .broadcastRoot 1, [0, 1]⟩,
  ⟨broadcast_root0_01_direct, [0, 1], .broadcastRoot 0, [0, 1]⟩,
  ⟨broadcast_root1_01_direct, [0, 1], .broadcastRoot 1, [0, 1]⟩]

/-! ## What they are for -/

/-- The input chunks that make chunk `k` of the output of rank `r`.  A buffer with one segment for
each rank has `perRank` chunks in a segment. -/
def operands (worldSize perRank r k : ℕ) : Collective → List BaseKey
  | .allgather => [⟨.input, (k / perRank : ℕ), (k % perRank : ℕ)⟩]
  | .allreduce => (List.range worldSize).map fun q : ℕ => ⟨.input, q, k⟩
  | .reducescatter => (List.range worldSize).map fun q : ℕ => ⟨.input, q, (r * perRank + k : ℕ)⟩
  | .alltoall => [⟨.input, (k / perRank : ℕ), (r * perRank + k % perRank : ℕ)⟩]
  | .broadcastRoot root => [⟨.input, root, k⟩]
  | .other _ => []

/-- Chunks of a segment, in a program for a collective. -/
def perRank (program : IRProgram) (worldSize : ℕ) : Collective → ℕ
  | .allgather => program.inputChunkCount
  | .reducescatter => program.outputChunkCount
  | .alltoall => program.inputChunkCount / worldSize
  | _ => 1

namespace Shipped

variable (t : Shipped)

/-- The topology that a document is for. -/
def topology : LocalTopology where
  numDevices := t.numas.length
  numNumaNodes := t.numas.dedup.length
  deviceToNuma := t.numas
  numaToPhysical := t.numas.dedup
  devicePciBusIds := []
  sized := rfl

/-- The program that a document is for a rank that loads it. -/
def load (rank : ℤ) : Except String IRProgram := parseDocument t.document rank (some t.topology)

/-- The lines of a program in the order given. -/
def lines (program : IRProgram) : List Line :=
  t.order.filterMap fun k => program.allInstructions[k]?.map fun inst => (inst, k)

/-- **A program computes its collective**, in the order given: no input is written, and every output
chunk of every rank is the sum of its operands. -/
structure Correct (program : IRProgram) : Prop where
  positions : t.order.Perm (List.range program.allInstructions.length)
  ordered : Ordered program t.numas.length (t.lines program)
  inputs : ∀ line ∈ t.lines program,
    ∀ base ∈ lineWrites plainOptions program t.numas.length line, base.space ≠ .input
  computes : ∀ r < t.numas.length, ∀ k < program.outputChunkCount,
    Computes program t.numas.length (t.lines program) ⟨.output, r, k⟩
      (operands t.numas.length (perRank program t.numas.length t.collective) r k t.collective)

instance (program : IRProgram) : Decidable (t.Correct program) :=
  decidable_of_iff (_ ∧ _ ∧ _ ∧ _) ⟨fun h => ⟨h.1, h.2.1, h.2.2.1, h.2.2.2⟩,
    fun h => ⟨h.positions, h.ordered, h.inputs, h.computes⟩⟩

/-- Chunk `k` of all outputs is the same expression, and device chunks do not cut it on the way. -/
def Agrees (program : IRProgram) (k : ℕ) : Prop :=
  ∃ e₀ ∈ symbolic program t.numas.length (t.lines program) ⟨.output, 0, k⟩,
    ∀ r < t.numas.length, ∃ e ∈ symbolic program t.numas.length (t.lines program) ⟨.output, r, k⟩,
      e.strip.same e₀.strip = true

instance (program : IRProgram) (k : ℕ) : Decidable (t.Agrees program k) := by
  unfold Agrees; infer_instance

end Shipped

/-- **Every shipped document computes its collective.** -/
theorem shipped_correct : ∀ t ∈ shipped, ∃ program, t.load 0 = .ok program ∧ t.Correct program ∧
    (t.collective = .allreduce → ∀ k < program.outputChunkCount, t.Agrees program k) := by
  have hall : (shipped.all fun t => (t.load 0).toOption.any fun program =>
      decide (t.Correct program ∧ (t.collective = .allreduce →
        ∀ k < program.outputChunkCount, t.Agrees program k))) = true := by decide +kernel
  intro t ht
  have hload := List.all_eq_true.1 hall t ht
  cases hprogram : t.load 0 with
  | error e =>
    rw [hprogram] at hload
    cases hload
  | ok program =>
    rw [hprogram] at hload
    obtain ⟨hcorrect, hagrees⟩ := of_decide_eq_true hload
    exact ⟨program, rfl, hcorrect, hagrees⟩

/-! ## Loading -/

/-- The loading rank only decides whether a document is accepted. -/
theorem program_eq_of_parse {doc : List Element} {rank rank' : ℤ} {topo : Option LocalTopology}
    {program program' : IRProgram} (h : parseDocument doc rank topo = .ok program)
    (h' : parseDocument doc rank' topo = .ok program') : program = program' := by
  have hin := @inputChunkCount_le_iff _ _ _ _ h
  have hin' := @inputChunkCount_le_iff _ _ _ _ h'
  have hout := @outputChunkCount_le_iff _ _ _ _ h
  have hout' := @outputChunkCount_le_iff _ _ _ _ h'
  have hinsts : program.allInstructions = program'.allInstructions := by
    obtain ⟨-, -, own, all, -, -, hall, rfl⟩ := parseDocument_ok h
    obtain ⟨-, -, own', all', -, -, hall', rfl⟩ := parseDocument_ok h'
    cases hall.symm.trans hall'
    rfl
  rw [hinsts] at hin hout
  have hins : program.inputChunkCount = program'.inputChunkCount :=
    le_antisymm (hin.2 (hin'.1 le_rfl)) (hin'.2 (hin.1 le_rfl))
  have houts : program.outputChunkCount = program'.outputChunkCount :=
    le_antisymm (hout.2 (hout'.1 le_rfl)) (hout'.2 (hout.1 le_rfl))
  cases program
  cases program'
  simp_all

/-- Of a topology the loader reads the NUMA nodes of the devices. -/
theorem parseDocument_topology {topo topo' : LocalTopology}
    (h : topo.deviceToNuma = topo'.deviceToNuma) (doc : List Element) (rank : ℤ) :
    parseDocument doc rank (some topo) = parseDocument doc rank (some topo') := by
  have hnuma : defaultNuma (some topo) = defaultNuma (some topo') := by
    funext rank
    simp only [defaultNuma, getNUMAForGPU, h]
  have hrank : parseRank (some topo) = parseRank (some topo') := by
    funext elem
    simp only [parseRank, hnuma]
  simp only [parseDocument, hrank]

/-- The lines at all positions are the lines of the document. -/
theorem filterMap_range (insts : List Instruction) :
    ((List.range insts.length).filterMap fun k => insts[k]?.map fun inst => (inst, k)) =
      insts.zipIdx := by
  induction insts using List.reverseRecOn with
  | nil => rfl
  | append_singleton insts inst ih =>
    rw [List.length_append, List.length_singleton, List.range_succ, List.filterMap_append,
      List.zipIdx_append, ← ih]
    congr 1
    · refine List.filterMap_congr fun k hk => ?_
      rw [List.getElem?_append_left (List.mem_range.1 hk)]
    · simp

theorem Shipped.Correct.inOrder {t : Shipped} {program : IRProgram} (h : t.Correct program) :
    InOrder plainOptions program t.numas.length (t.lines program) where
  perm := by
    rw [← filterMap_range]
    exact h.positions.filterMap _
  respects := h.ordered.respects

/-! ## Runs -/

section

variable {c : Cluster} {B : Type} {reduce : c.Reduction B} {m : Memory B} {t : Shipped} {rank : ℤ}
  {topo : LocalTopology} {stale : Word → ℕ} {ls : List Executor.Label} {s : Executor.State}

/-- A program that a rank has loaded from a shipped document. -/
theorem correct_of_load (ht : t ∈ shipped) (htopo : topo.deviceToNuma = t.numas)
    (hload : parseDocument t.document rank (some topo) = .ok c.program) :
    t.Correct c.program ∧
      (t.collective = .allreduce → ∀ k < c.program.outputChunkCount, t.Agrees c.program k) := by
  obtain ⟨program, hprogram, hcorrect⟩ := shipped_correct t ht
  have htopology : topo.deviceToNuma = t.topology.deviceToNuma := htopo
  rw [parseDocument_topology htopology] at hload
  rwa [program_eq_of_parse hload hprogram]

end

/-! ### The ring of two ranks -/

/-- Buffers far apart. -/
def apart : RuntimeBinding where
  hostBase := fun owner => some (2 ^ 40 * (owner.toNat + 1))
  deviceBase := fun space owner =>
    some (2 ^ 50 * (owner.toNat + 1) + 2 ^ 40 * spaceCode space)

/-- The program of `allreduce_00.xml`. -/
def ringProgram : IRProgram where
  inputChunkCount := 2
  outputChunkCount := 2
  allInstructions :=
    [⟨.d2h, 0, 0, .input, .output, ⟨0, 1⟩, ⟨-1, -1⟩, ⟨0, 0⟩⟩,
     ⟨.d2d, 0, 0, .input, .internal, ⟨0, 0⟩, ⟨-1, -1⟩, ⟨0, 0⟩⟩,
     ⟨.h2d, 0, 0, .input, .internal, ⟨0, 1⟩, ⟨-1, -1⟩, ⟨0, 1⟩⟩,
     ⟨.d2dReduce, 0, 0, .internal, .internal, ⟨0, 1⟩, ⟨-1, -1⟩, ⟨0, 0⟩⟩,
     ⟨.d2h, 0, 0, .internal, .output, ⟨0, 0⟩, ⟨-1, -1⟩, ⟨0, 2⟩⟩,
     ⟨.d2d, 0, 0, .internal, .output, ⟨0, 0⟩, ⟨-1, -1⟩, ⟨0, 0⟩⟩,
     ⟨.h2d, 0, 0, .input, .output, ⟨0, 3⟩, ⟨-1, -1⟩, ⟨0, 1⟩⟩,
     ⟨.d2h, 1, 1, .input, .output, ⟨0, 0⟩, ⟨-1, -1⟩, ⟨0, 1⟩⟩,
     ⟨.d2d, 1, 1, .input, .internal, ⟨0, 1⟩, ⟨-1, -1⟩, ⟨0, 1⟩⟩,
     ⟨.h2d, 1, 1, .input, .internal, ⟨0, 0⟩, ⟨-1, -1⟩, ⟨0, 0⟩⟩,
     ⟨.d2dReduce, 1, 1, .internal, .internal, ⟨0, 0⟩, ⟨-1, -1⟩, ⟨0, 1⟩⟩,
     ⟨.d2h, 1, 1, .internal, .output, ⟨0, 1⟩, ⟨-1, -1⟩, ⟨0, 3⟩⟩,
     ⟨.d2d, 1, 1, .internal, .output, ⟨0, 1⟩, ⟨-1, -1⟩, ⟨0, 1⟩⟩,
     ⟨.h2d, 1, 1, .input, .output, ⟨0, 2⟩, ⟨-1, -1⟩, ⟨0, 0⟩⟩]

/-- Four elements, in two chunks. -/
def ringCluster : Cluster where
  env := {}
  graphOptions := { legacyLayout := { segCount := 4 } }
  program := ringProgram
  worldSize := 2
  plan := (plan? _ _ _).get (by decide)
  binding := fun _ => apart
  h2hThreads := 1
  h2hThreads_pos := Nat.one_pos

/-- Rank `r` gets through with node `i`. -/
def through (r i : ℕ) (q : Queue) (before after : ℕ) : List Executor.Label :=
  [.attempt r i] ++ runs r before ++ [.work r q 0 0 8, .count r q 0 0, .poll r q 0] ++ runs r after

/-- Each rank brings a chunk to the host and adds the other one, then they exchange the sums. -/
def ringRun : List Executor.Label :=
  [.start 0] ++ runs 0 32 ++ [.start 1] ++ runs 1 32 ++
  through 0 0 .d2h 4 6 ++ through 0 1 .d2dLocal 4 6 ++ through 1 0 .d2h 4 6 ++
  through 0 2 .h2d 4 6 ++ through 0 3 .d2dReduce 6 6 ++ through 0 4 .d2h 4 8 ++
  through 0 5 .d2dLocal 4 8 ++ through 1 1 .d2dLocal 4 6 ++ through 1 2 .h2d 4 6 ++
  through 1 3 .d2dReduce 6 6 ++ through 1 4 .d2h 4 8 ++ through 0 6 .h2d 4 6 ++
  through 1 5 .d2dLocal 4 8 ++ through 1 6 .h2d 4 6

theorem ringCluster_plain : ringCluster.Plain where
  words := by decide +kernel
  issued := rfl
  ranks := by decide
  outOfPlace := rfl
  rings := by decide +kernel

theorem ring_finished :
    ∃ s, ringCluster.machine.runFrom ringCluster.disciplined (Executor.State.init fun _ => 0) ringRun =
      some s ∧ Finished ringCluster s := by
  have hobs : ((ringCluster.machine.runFrom ringCluster.disciplined (Executor.State.init fun _ => 0)
      ringRun).map fun s => decide (∀ r : ℕ, r < 2 → ∀ i : ℕ, i < 7 →
        (s.execs r).completed i = 1)) =
        some true := by decide +kernel
  obtain ⟨s, hrun, hobs⟩ := Option.map_eq_some_iff.1 hobs
  have hdone := of_decide_eq_true hobs
  refine ⟨s, hrun, fun r hr i n hn => ?_⟩
  have hlen : ∀ r < 2, (ringCluster.graph r).nodes.length ≤ 7 := by decide +kernel
  rw [hdone r hr i ((List.getElem?_eq_some_iff.1 hn).1.trans_le (hlen r hr))]
  decide +kernel

theorem ring_load (rank : ℤ) (h : rank = 0 ∨ rank = 1) :
    parseDocument (shipped[0]).document rank (some (shipped[0]).topology) =
      .ok ringCluster.program := by
  have hload : ∀ rank ∈ [(0 : ℤ), 1],
      (parseDocument (shipped[0]).document rank (some (shipped[0]).topology)).toOption =
        some ringCluster.program := by decide +kernel
  have := hload rank (by simpa using h)
  cases hp : parseDocument (shipped[0]).document rank (some (shipped[0]).topology) with
  | error e => rw [hp] at this; cases this
  | ok program => rw [hp] at this; cases this; rfl

end ShippedPrograms
end Api
end HyLink
