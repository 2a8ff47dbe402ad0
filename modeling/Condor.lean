import Condor.ClassAd.Completeness
import Condor.ClassAd.FullParse
import Condor.ClassAd.JsonRoundTrip
import Condor.ClassAd.FlatMap
import Condor.ClassAd.Sameness
import Condor.ClassAd.Shifts
import Condor.ClassAd.Commute
import Condor.ClassAd.Agreement
import Condor.ClassAd.Restored
import Condor.ClassAd.Numerals
import Condor.ClassAd.ParseDepth
import Condor.Log.Append
import Condor.Log.Lookup
import Condor.Log.Poll
import Condor.Ranger.Load
import Condor.Timers.Pass
import Condor.DataReuse.Admission
import Condor.DataReuse.Replay
import Condor.Dagman.Checks
import Condor.Dagman.ReadyQueue
import Condor.Dagman.ScriptQ
import Condor.Dagman.Futile
import Condor.Dagman.Cycle
import Condor.Security.Wildcards
import Condor.Security.MapFile
import Condor.Security.PrefixMap
import Condor.Security.Holes
import Condor.Cedar.Delivery
import Condor.Cedar.ReadBack
import Condor.Cedar.Defragmented
import Condor.Cedar.ChainQueue
import Condor.Procd.Interval
import Condor.Procd.Signals
import Condor.Startd.Assigned
import Condor.Stats.Recent
import Condor.Submit.Slice
import Condor.Transfer.Sandbox
import Condor.Cron.Calendar
