import AdvancedArchitecture.Lib.Table
import AdvancedArchitecture.Lib.Run
import AdvancedArchitecture.Tomasulo.ReadAfterWrite
import AdvancedArchitecture.Tomasulo.Termination
import AdvancedArchitecture.Tomasulo.WriteAfterWrite
import AdvancedArchitecture.Tomasulo.Younger
import AdvancedArchitecture.Bpred.Training
import AdvancedArchitecture.Bpred.Direction
import AdvancedArchitecture.Cache.Machine
import AdvancedArchitecture.Cache.Links
import AdvancedArchitecture.Cache.Ways
import AdvancedArchitecture.Cache.SetRefinement
import AdvancedArchitecture.Cache.Geometry
import AdvancedArchitecture.Cache.WayInvariant
import AdvancedArchitecture.Cache.Refinement
import AdvancedArchitecture.Lib.WriteBack
import AdvancedArchitecture.Cache.Contents
import AdvancedArchitecture.Cache.Transparency
import AdvancedArchitecture.Cache.Residence
import AdvancedArchitecture.Cache.Search
import AdvancedArchitecture.Cache.Occupancy
import AdvancedArchitecture.Cache.FastHit
import AdvancedArchitecture.Cache.Victims
import AdvancedArchitecture.Lib.Recency
import AdvancedArchitecture.Cache.Recency
import AdvancedArchitecture.Cache.Inclusion
import AdvancedArchitecture.Cache.Outcomes
import AdvancedArchitecture.Cache.Decomposition
import AdvancedArchitecture.Cache.DirectMapped
import AdvancedArchitecture.Bpred.History
import AdvancedArchitecture.Bpred.Tournament
import AdvancedArchitecture.Lib.Admission
import AdvancedArchitecture.Tomasulo.InOrder
import AdvancedArchitecture.Tomasulo.Timing
import AdvancedArchitecture.Cache.Dueling
import AdvancedArchitecture.Cache.Lookups
import AdvancedArchitecture.Bpred.Gshare
import AdvancedArchitecture.Tomasulo.Scoreboard
import AdvancedArchitecture.Tomasulo.Oldest
import AdvancedArchitecture.Tomasulo.Bounds
import AdvancedArchitecture.Tomasulo.WakeUp
import AdvancedArchitecture.Cache.WayList
import AdvancedArchitecture.Lib.Outcome
import AdvancedArchitecture.Lib.Ring
import AdvancedArchitecture.Outorder.Resource
import AdvancedArchitecture.Outorder.Core
import AdvancedArchitecture.Outorder.Machine
import AdvancedArchitecture.Outorder.Links
import AdvancedArchitecture.Outorder.Scheduled
import AdvancedArchitecture.Outorder.Dependence
import AdvancedArchitecture.Outorder.Wakeup
import AdvancedArchitecture.Outorder.Linking
import AdvancedArchitecture.Outorder.Dispatch
import AdvancedArchitecture.Outorder.Recovery
import AdvancedArchitecture.Outorder.Speculation
import AdvancedArchitecture.Outorder.Memory
import AdvancedArchitecture.Outorder.Invariant
import AdvancedArchitecture.Outorder.InOrder
import AdvancedArchitecture.Outorder.Issue
import AdvancedArchitecture.Outorder.Commit
import AdvancedArchitecture.Outorder.Writeback
import AdvancedArchitecture.Outorder.Decode
import AdvancedArchitecture.Outorder.Pipeline
import AdvancedArchitecture.Outorder.Runs
import AdvancedArchitecture.Outorder.Guarantees
import AdvancedArchitecture.Outorder.LoadStore
import AdvancedArchitecture.Bpred.ReturnStack
import AdvancedArchitecture.Bpred.TargetBuffer
