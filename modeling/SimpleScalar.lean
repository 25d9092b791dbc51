import SimpleScalar.Isa.Declared
import SimpleScalar.Outorder.Pipeline
import SimpleScalar.Cache.Accounting
import SimpleScalar.Cache.Replacement
import SimpleScalar.Cache.Transparency
import SimpleScalar.Cache.Usable
import SimpleScalar.Outorder.Retire
import SimpleScalar.Outorder.ReadyQueue
import SimpleScalar.Outorder.Overlay
import SimpleScalar.Outorder.Disambiguation
import SimpleScalar.Outorder.Events
import SimpleScalar.Outorder.Units
import SimpleScalar.Unaligned
import SimpleScalar.Bpred.Retstack
import SimpleScalar.Bpred.Usage
import SimpleScalar.Eval.Usual
import SimpleScalar.Eval.Accept
import SimpleScalar.Stats
import SimpleScalar.Symbol
import SimpleScalar.StackImage
import SimpleScalar.Safe.Indexing
import SimpleScalar.Safe.TwoPhase
import SimpleScalar.Safe.RoundTrip
import SimpleScalar.Bcopy
import SimpleScalar.ResourcePool
import SimpleScalar.Eventq
import SimpleScalar.SegProfile
