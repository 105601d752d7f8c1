import Candcpp.Timer.SortedListRuns
import Candcpp.Timer.CloseNonactivity
import Candcpp.Timer.WheelRuns
import Candcpp.Timer.HeapRuns
import Candcpp.Thread.ThreadPoolRuns
import Candcpp.Thread.ReactorPool
import Candcpp.Thread.ProducerConsumerRuns
import Candcpp.Net.ChatroomTexts
import Candcpp.Net.EchoAll
import Candcpp.Net.HelloClassRuns
import Candcpp.Net.Shutdown
import Candcpp.Net.EpollOneshot
import Candcpp.Algorithm.DisjointSet
import Candcpp.Algorithm.MyLinkedList
import Candcpp.Algorithm.DecodeString
import Candcpp.Algorithm.DecodeStringReturns
import Candcpp.Algorithm.ExamRoom
import Candcpp.Algorithm.ArrayMinHeap
import Candcpp.Cpp.Buffers
import Candcpp.Cpp.Owners
import Candcpp.Class.Vector
import Candcpp.Class.VectorRuns
import Candcpp.Class.Useless
import Candcpp.Concurrent.EdgeQueue
import Candcpp.Net.ListenLoop
import Candcpp.Net.EdgeServers
import Candcpp.Class.UselessThrows
import Candcpp.Class.VectorSort
import Candcpp.Timer.SortedListPointers
import Candcpp.Cpp.Loop
import Candcpp.Net.AcceptLoop
import Candcpp.Net.EchoLoop
import Candcpp.Net.RecvLoop
import Candcpp.Algorithm.MinimumSize
import Candcpp.Order.Bisect
import Candcpp.Order.Sliding
import Candcpp.Order.Steps
import Candcpp.Algorithm.MinimumSizeOptimal
import Candcpp.Algorithm.ClosestRoom
import Candcpp.Algorithm.MaxOperations
import Candcpp.Order.Guillotine
import Candcpp.Order.Windows
import Candcpp.Algorithm.MinimumCost
import Candcpp.Algorithm.MinimumSubarrayLength
import Candcpp.Algorithm.ValidPath
import Candcpp.Order.Retrograde
import Candcpp.Algorithm.CatMouseGame
import Candcpp.Thread.SingleInstance
import Candcpp.Thread.TimedMutex
import Candcpp.Cpp.Grid
import Candcpp.Algorithm.SubstringPresent
import Candcpp.Algorithm.LongestSubstring
import Candcpp.Cpp.Segments
import Candcpp.Algorithm.BubbleSort
import Candcpp.Algorithm.QuickSort
import Candcpp.Algorithm.MergeSort
import Candcpp.Order.Levels
import Candcpp.Algorithm.Trap
import Candcpp.Order.Lowered
import Candcpp.Order.Merged
import Candcpp.Algorithm.LinkedListSort
import Candcpp.Order.Backtrack
import Candcpp.Algorithm.SolveNQueens
import Candcpp.Order.Layers
import Candcpp.Algorithm.MinJumps
import Candcpp.Order.Deadlines
import Candcpp.Algorithm.EatenApples
import Candcpp.Order.NextGreater
import Candcpp.Algorithm.DailyTemperatures
import Candcpp.Algorithm.UniquePaths
import Candcpp.Order.GridPaths
import Candcpp.Algorithm.MinSubArrayLen
import Candcpp.Order.Frontier
import Candcpp.Algorithm.Covered
import Candcpp.Cpp.Tally
import Candcpp.Algorithm.MinWindow
import Candcpp.Algorithm.ValidSubstringCount
import Candcpp.Algorithm.FindAnagrams
import Candcpp.Algorithm.FindKthBit
import Candcpp.Algorithm.FindKthLargest
import Candcpp.Order.Intervals
import Candcpp.Algorithm.MyCalendar
import Candcpp.Order.Walks
import Candcpp.Cpp.SiftDown
import Candcpp.Algorithm.KnightDialer
import Candcpp.Cpp.Front
import Candcpp.Algorithm.RemoveElement
import Candcpp.Order.Capped
import Candcpp.Algorithm.RemoveDuplicates
import Candcpp.Cpp.Watched
import Candcpp.Algorithm.MergeArrays
import Candcpp.Order.NextArrangement
import Candcpp.Algorithm.NextPermutation
import Candcpp.Order.Pairs
import Candcpp.Algorithm.MaxArea
import Candcpp.Order.Chosen
import Candcpp.Algorithm.ThreeSum
import Candcpp.Algorithm.FindBall
import Candcpp.Algorithm.RotateTheBox
import Candcpp.Algorithm.MaximumHappinessSum
import Candcpp.Order.GcdSteps
import Candcpp.Algorithm.MinOperations
import Candcpp.Algorithm.ReverseList
import Candcpp.Order.Zigzag
import Candcpp.Algorithm.ReorderList
import Candcpp.Algorithm.MergeKLists
import Candcpp.Algorithm.IntersectionNode
import Candcpp.Order.Repeated
import Candcpp.Algorithm.FindDuplicate
import Candcpp.Algorithm.ArrayMinHeapBfs
import Candcpp.Order.Shapes
import Candcpp.Cpp.Trees
import Candcpp.Algorithm.BinaryTree
import Candcpp.Algorithm.IsSubPath
import Candcpp.Algorithm.LowestCommonAncestor
import Candcpp.Algorithm.TwoSum
import Candcpp.Algorithm.LongestConsecutive
import Candcpp.Order.Consecutive
import Candcpp.Algorithm.SemiOrderedPermutation
import Candcpp.Algorithm.MaxMatrixSum
import Candcpp.Algorithm.CheckStrings
import Candcpp.Algorithm.GroupAnagrams
import Candcpp.Algorithm.MaxProfit
import Candcpp.Algorithm.CopyRandomList
import Candcpp.Cpp.CString
import Candcpp.Httpd.GetLine
import Candcpp.Httpd.Responses
import Candcpp.Httpd.RequestLine
import Candcpp.Httpd.Cgi
import Candcpp.Httpd.AcceptRequest
import Candcpp.Httpd.Answers
import Candcpp.Httpd.CgiPipes
import Candcpp.Httpd.CgiFilter
import Candcpp.Ffmpeg.PullIpc
import Candcpp.Ffmpeg.PullIpcRuns
import Candcpp.Net.UnifiedEvents
import Candcpp.Ffmpeg.DecodeAudio
import Candcpp.Cpp.Strided
import Candcpp.Ffmpeg.DecodeVideo
import Candcpp.Ffmpeg.EncodeVideo
import Candcpp.Net.EpollServer
import Candcpp.Algorithm.PruneTree
import Candcpp.Algorithm.MoveZeroes
